import Shambles.Lru.Memory

/-!
# Linearization — the sections of concurrent callers in one order

The sections under `lruLock`, in the order in which they are entered, are the reports of a run without
threads (`Linear`): it ends with the same region tree, lists and tags, and only the calls of `unbind`
have moved forward in time.

This is so as long as large blocks on a slot boundary are kept, and lookups for small blocks come to
nothing.  A lookup that no store disturbs comes to nothing in both cases (`Serial.missed`): the former
blocks would stay tracked.  A lookup for a small block that falls into a release may find what is being
deleted (`lookup_finds_deleted_region`).
-/

namespace Shambles
namespace Lru

open AssocList Structures Plugins
open Jemalloc (Allocation)

/-! ## Calls of `unbind` that are early -/

def isUnbind : Effect → Bool
  | .mbind _ _ .default => true
  | _ => false

theorem filter_unbind (region : ShamblesRegion) :
    (unbind region).filter isUnbind = unbind region ∧
      (unbind region).filter (fun e => !isUnbind e) = [] := by
  unfold unbind
  split <;> simp [isUnbind]

/-- The same effects, but for calls of `unbind` that have been made early. -/
structure Ahead (early now : List Effect) (pending : List Effect) : Prop where
  others : early.filter (fun e => !isUnbind e) = now.filter fun e => !isUnbind e
  unbinds : (early.filter isUnbind).Perm (now.filter isUnbind ++ pending)

namespace Ahead

variable {early late now pending pending' effects : List Effect}

theorem append (h : Ahead early now pending) (effects : List Effect) :
    Ahead (early ++ effects) (now ++ effects) pending := by
  refine ⟨by rw [List.filter_append, List.filter_append, h.others], ?_⟩
  rw [List.filter_append, List.filter_append, List.append_assoc]
  refine (h.unbinds.append_right _).trans ?_
  rw [List.append_assoc]
  exact List.perm_append_comm.append_left _

theorem perm (h : Ahead early now pending) (hperm : pending.Perm pending') :
    Ahead early now pending' :=
  ⟨h.others, h.unbinds.trans (hperm.append_left _)⟩

/-- `unbind` is called; the rest of a section in progress is still to come. -/
theorem issue (h : Ahead (early ++ late) now pending) (region : ShamblesRegion) :
    Ahead (early ++ unbind region ++ late) now (unbind region ++ pending) := by
  rcases filter_unbind region with ⟨hall, hnone⟩
  have hothers := h.others
  have hunbinds := h.unbinds
  rw [List.filter_append] at hothers hunbinds
  refine ⟨?_, ?_⟩
  · rw [List.filter_append, List.filter_append, hnone, List.append_nil, hothers]
  · rw [List.filter_append, List.filter_append, hall, List.append_assoc]
    refine (List.perm_append_comm_assoc _ _ _).trans ?_
    exact (hunbinds.append_left _).trans (List.perm_append_comm_assoc _ _ _)

theorem settle {region : ShamblesRegion} (h : Ahead early now (unbind region ++ pending)) :
    Ahead early (now ++ unbind region) pending := by
  rcases filter_unbind region with ⟨hall, hnone⟩
  refine ⟨by rw [List.filter_append, hnone, List.append_nil, h.others], ?_⟩
  rw [List.filter_append, hall, List.append_assoc]
  exact h.unbinds

end Ahead

namespace World

variable {c : Setup} {w : World c} {t : Nat} {b : Allocation} {pc : Pc}

/-- The call of `unbind` a thread has made whose release has not entered its section yet. -/
def pendingOf (regions : RegionMap) (call : Call) : List Effect :=
  match call.2.2 with
  | .unbound p => ((regions.lookup p).map unbind).getD []
  | _ => []

def pendingUnbinds (w : World c) : List Effect :=
  w.calls.flatMap (pendingOf w.front.policy.regions)

theorem pendingOf_eq_nil {regions : RegionMap} (hpc : ∀ p, pc ≠ .unbound p) :
    pendingOf regions (t, b, pc) = [] := by
  cases pc with
  | unbound p => exact absurd rfl (hpc p)
  | _ => rfl

/-- The pending calls of `unbind` by thread. -/
theorem pendingUnbinds_perm (hkeys : (w.calls.map Prod.fst).Nodup)
    (hcall : w.calls.lookup t = some (b, pc)) :
    w.pendingUnbinds.Perm (pendingOf w.front.policy.regions (t, b, pc) ++
      (endCall w.calls t).flatMap (pendingOf w.front.policy.regions)) :=
  (perm_cons_filter hkeys hcall).flatMap_right _

/-- A call that goes on or ends, without a call of `unbind` before. -/
theorem pendingUnbinds_skip (hkeys : (w.calls.map Prod.fst).Nodup)
    (hcall : w.calls.lookup t = some (b, pc)) (hpc : ∀ p, pc ≠ .unbound p) :
    w.pendingUnbinds.Perm ((endCall w.calls t).flatMap (pendingOf w.front.policy.regions)) := by
  have hperm := pendingUnbinds_perm hkeys hcall
  rwa [pendingOf_eq_nil hpc, List.nil_append] at hperm

/-- Regions of others do not matter to a pending call. -/
theorem pendingOf_congr {regions regions' : RegionMap} {calls : List Call}
    (h : ∀ x ∈ calls, ∀ p, x.2.2 = .unbound p → regions'.lookup p = regions.lookup p) :
    calls.flatMap (pendingOf regions') = calls.flatMap (pendingOf regions) := by
  refine List.flatMap_congr ?_
  intro x hx
  unfold pendingOf
  split
  · rename_i p hp
    rw [h x hx p hp]
  · rfl

end World

/-! ## The run without threads -/

/-- The sections under the lock are the reports of a run without threads that ends in the state the
last of them will leave, up to early calls of `unbind`. -/
def Linear {c : Setup} (C : Nat) (w : World c) : Prop :=
  ∃ s, Run (Front.system policy c) (Front.init c (lruInit C)) w.order s ∧ Alike s w.front ∧
    Ahead (w.trace ++ w.left) s.policy.trace w.pendingUnbinds

namespace Alike

variable {c : Setup} {s u : Front c State}

theorem enabled (h : Alike s u) {r : Report} (hen : u.Enabled Lru.policy r) :
    s.Enabled Lru.policy r := by
  have hregions : Lru.policy.regions s.policy = Lru.policy.regions u.policy := h.regions
  cases r with
  | callback event output chunksPtr =>
      simp only [Front.Enabled, hregions]
      exact hen
  | sample addr => exact hen

theorem symm (h : Alike s u) : Alike u s :=
  ⟨h.root.symm, h.policy.symm⟩

theorem exact (h : Alike s u) (hex : Front.Exact Lru.policy s) : Front.Exact Lru.policy u := by
  have htree : s.tree Lru.policy = u.tree Lru.policy := by
    simp only [Front.tree, h.root]
    exact congrArg _ h.regions
  have hregions : Lru.policy.regions s.policy = Lru.policy.regions u.policy := h.regions
  exact ⟨htree ▸ hex.mapped, hregions ▸ hex.cut⟩

/-- The section of a release, and what the run without threads does in its place. -/
theorem freeNodes (h : Alike s u) {p : RegionPtr} {region : ShamblesRegion}
    {root : Root c.geometry} {b : Allocation}
    (hget : Structures.getRegion c.geometry u.root b.start = some p)
    (hregion : u.policy.regions.lookup p = some region)
    (hroot : deleteRegion c.geometry u.root region = some root) :
    ∃ s' effects, s.step Lru.policy (freeReport b) = some s' ∧
      Alike s' ⟨root, Lru.freeNodes u.policy p region⟩ ∧
      s'.policy.trace = s.policy.trace ++ unbind region ++ effects ∧
      (Lru.freeNodes u.policy p region).trace = u.policy.trace ++ effects := by
  have hcore : ∀ v : State,
      Lru.freeNodes v p region = (Lru.freeNodes v.clear p region).retrace v.trace := by
    intro v
    rw [← freeNodes_retrace, State.retrace_clear]
  have hclear : (s.policy.emit (unbind region)).clear = u.policy.clear := h.policy
  refine ⟨⟨root, freeRegion s.policy p region⟩, (Lru.freeNodes u.policy.clear p region).trace,
    ?_, ⟨rfl, ?_⟩, ?_, ?_⟩
  · have hregion' : s.policy.regions.lookup p = some region := by rw [h.regions, hregion]
    simp [Front.step, Front.allocCallback, freeReport, h.root, hget, Lru.policy, Lru.step, hregion',
      hroot]
  · simp only [freeRegion_eq]
    rw [hcore, hclear, hcore u.policy]
    rfl
  · simp only [freeRegion_eq]
    rw [hcore, hclear]
    rfl
  · rw [hcore]
    rfl

end Alike

namespace Linear

variable {c : Setup} {C : Nat} {w w' : World c}

theorem init (c : Setup) (C : Nat) : Linear C (World.init c C) :=
  ⟨_, Run.nil, ⟨rfl, rfl⟩, rfl, List.Perm.refl _⟩

/-- A step outside of sections, or a store of a section. -/
theorem quiet (h : Linear C w) (hfront : w'.front = w.front) (horder : w'.order = w.order)
    (htrace : w'.trace ++ w'.left = w.trace ++ w.left)
    (hpending : w.pendingUnbinds.Perm w'.pendingUnbinds) : Linear C w' := by
  rcases h with ⟨s, hrun, halike, hahead⟩
  exact ⟨s, horder ▸ hrun, hfront ▸ halike, htrace ▸ hahead.perm hpending⟩

/-- A callback enters its section, which is all of it. -/
theorem enter (h : Linear C w) {r : Report} {front : Front c State}
    (hen : w.front.Enabled policy r) (hst : w.front.step policy r = some front)
    (hleft : w.left = []) (hfront : w'.front = front) (horder : w'.order = w.order ++ [r])
    (htrace : w'.trace = w.trace)
    (hleft' : w'.left = front.policy.trace.drop w.front.policy.trace.length)
    (hpending : w.pendingUnbinds.Perm w'.pendingUnbinds) : Linear C w' := by
  rcases h with ⟨s, hrun, halike, hahead⟩
  rcases halike.symm.step hst with ⟨s', effects, hs', halike', hnew, hnew'⟩
  subst hfront
  refine ⟨s', horder ▸ hrun.snoc (halike.enabled hen) hs', halike'.symm, ?_⟩
  rw [hleft, List.append_nil] at hahead
  rw [htrace, hleft', hnew, List.drop_left, hnew']
  exact (hahead.append effects).perm hpending

end Linear

/-! ## What every step keeps -/

/-- Whether the block of a call is tracked. -/
theorem Safe.mem_blocks_iff {c : Setup} {front : Front c State} {held : List Allocation}
    {calls : List Call} {t : Nat} {b : Allocation} {pc : Pc} (h : Safe front held calls)
    (hcall : calls.lookup t = some (b, pc)) :
    b ∈ front.blocks policy ↔ c.sizeThresshold ≤ b.size ∧ pc.tracking = true := by
  rcases h.rest hcall with ⟨hb, -, hother, hcases⟩
  rw [h.tracked b]
  constructor
  · rintro ⟨_, hlarge, hall⟩
    exact ⟨hlarge, hall _ ((hcases _).2 (Or.inl rfl)) rfl⟩
  · rintro ⟨hlarge, hpc⟩
    refine ⟨hb, hlarge, ?_⟩
    intro x hx hxb
    rcases (hcases x).1 hx with rfl | hx
    · exact hpc
    · exact absurd hxb (hother x hx)

structure Inv {c : Setup} (C : Nat) (w : World c) : Prop where
  safe : Safe w.front w.held w.calls
  memory : Memory w
  linear : Linear C w

namespace Inv

variable {c : Setup} {C : Nat} {w w' : World c} {t : Nat} {b : Allocation} {pc pc' : Pc}
  {p : RegionPtr}

theorem init (c : Setup) (C : Nat) : Inv C (World.init c C) :=
  ⟨Safe.init c C, Memory.init c C, Linear.init c C⟩

theorem left_of_idle (h : Inv C w) (hlock : w.lock = none) : w.left = [] := by
  simp [World.left, h.memory.idle hlock]

/-- A call begins. -/
theorem pending_begin (hidle : w.calls.lookup t = none) (hpc : ∀ p, pc ≠ .unbound p) :
    w.pendingUnbinds.Perm
      ((setCall w.calls t b pc).flatMap (World.pendingOf w.front.policy.regions)) := by
  have hcalls : setCall w.calls t b pc = (t, b, pc) :: w.calls :=
    congrArg _ (Safe.calls_of_idle hidle)
  rw [hcalls, List.flatMap_cons, World.pendingOf_eq_nil hpc, List.nil_append]
  exact List.Perm.refl _

/-- A call goes on, with no call of `unbind` before or after. -/
theorem pending_goOn (h : Inv C w) (hcall : w.calls.lookup t = some (b, pc))
    (hpc : ∀ p, pc ≠ .unbound p) (hpc' : ∀ p, pc' ≠ .unbound p) :
    w.pendingUnbinds.Perm
      ((setCall w.calls t b pc').flatMap (World.pendingOf w.front.policy.regions)) := by
  rw [setCall, List.flatMap_cons, World.pendingOf_eq_nil hpc', List.nil_append]
  exact World.pendingUnbinds_skip h.safe.threads hcall hpc

/-- A lookup or a release moves on and changes nothing else. -/
theorem goOn (h : Inv C w) (hcall : w.calls.lookup t = some (b, pc)) (hpc : pc.inside = false)
    (hunbound : ∀ p, pc ≠ .unbound p) (hpc' : pc'.inside = false)
    (hunbound' : ∀ p, pc' ≠ .unbound p)
    (hblock : b ∈ w.front.blocks policy ↔ c.sizeThresshold ≤ b.size ∧ pc'.tracking = true)
    (hfound : ∀ p, pc' = .found p ∨ pc' = .unbound p →
      ∃ region, w.front.policy.regions.lookup p = some region ∧ blockOf region = b)
    (hway : OnTheWay c (t, b, pc')) : Inv C { w with calls := setCall w.calls t b pc' } :=
  ⟨h.safe.move hcall h.safe.exact hblock (fun _ _ => Iff.rfl) (fun _ _ hregion _ => hregion) hfound,
    h.memory.goOn h.safe hcall hpc hpc' hway w.trace,
    h.linear.quiet rfl rfl rfl (h.pending_goOn hcall hunbound hunbound')⟩

/-- The report of a block too small to be tracked. -/
theorem reportSmall (h : Inv C w) (hcall : w.calls.lookup t = some (b, .allocated))
    (hsmall : ¬ c.sizeThresshold ≤ b.size) : Inv C { w with calls := endCall w.calls t } := by
  refine ⟨h.safe.finish hcall (List.Sublist.refl _) (fun _ _ => Iff.rfl) ?_,
    h.memory.close h.safe hcall rfl w.held,
    h.linear.quiet rfl rfl rfl (World.pendingUnbinds_skip h.safe.threads hcall (by simp))⟩
  rw [h.safe.mem_blocks_iff hcall]
  simp [hsmall]

/-- What the section of an allocation will leave. -/
theorem front_of_alloc {front front' : Front c State} {output chunksPtr : Nat}
    (hlarge : c.sizeThresshold ≤ b.size)
    (hst : front.step policy (allocReport b output chunksPtr) = some front') :
    ∃ region, blockOf region = b ∧
      front'.policy.regions = (output, region) :: front.policy.regions ∧
      front'.root = registerRegion c.geometry front.root output b.start
        (wrap64 (b.start + b.size)) := by
  simp only [Front.step, Front.allocCallback, allocReport, hlarge, if_true] at hst
  rcases Option.map_eq_some_iff.1 hst with ⟨t, ht, rfl⟩
  refine ⟨_, ?_, policy.regions_alloc _ _ _ _ ht, rfl⟩
  simp [blockOf, Structures.addRegion, ShamblesRegion.size, chunkTable_size]

/-- The regions that are there stay. -/
theorem lookup_cons_fresh {regions : RegionMap} {output q : RegionPtr} {region r : ShamblesRegion}
    (hfresh : regions.lookup output = none) (hr : regions.lookup q = some r) :
    List.lookup q ((output, region) :: regions) = some r := by
  have hne : q ≠ output := by
    rintro rfl
    exact Option.some_ne_none _ (hr.symm.trans hfresh)
  rw [lookup_cons_eq, if_neg hne, hr]

section Alloc

variable {front : Front c State} {output : Nat} {region : ShamblesRegion}

/-- The section of an allocation: what the plugin tracks. -/
theorem alloc_safe (h : Inv C w) (hcall : w.calls.lookup t = some (blockOf region, .allocated))
    (hlarge : c.sizeThresshold ≤ (blockOf region).size)
    (hfresh : w.front.policy.regions.lookup output = none)
    (hregions : front.policy.regions = (output, region) :: w.front.policy.regions)
    (hexact : Front.Exact policy front) :
    Safe front w.held (setCall w.calls t (blockOf region) .adding) := by
  have hblocks : front.blocks policy = blockOf region :: w.front.blocks policy := by
    simp [Front.blocks, policy, hregions]
  refine h.safe.move hcall hexact ?_ ?_ ?_ (by simp)
  · simp [hblocks, hlarge, Pc.tracking]
  · intro b' hne
    simp [hblocks, hne]
  · intro q r hr _
    rw [hregions]
    exact lookup_cons_fresh hfresh hr

/-- The section of an allocation: the stores it makes. -/
theorem alloc_memory (h : Inv C w) (hlock : w.lock = none)
    (hsafe : Safe front w.held (setCall w.calls t (blockOf region) .adding))
    (hregions : front.policy.regions = (output, region) :: w.front.policy.regions)
    (hroot : front.root = registerRegion c.geometry w.front.root output region.start
      (wrap64 (region.start + region.size))) (r : Report) :
    Memory { w.enter (.thread t) r front
        ((addStores c.geometry output region.start (wrap64 (region.start + region.size))).map
          Op.store ++ w.effects front) with
      calls := setCall w.calls t (blockOf region) .adding } := by
  have hmem : w.root = w.front.root := h.memory.root_eq (h.memory.stores_of_idle hlock)
  have hsts : ((addStores c.geometry output region.start
      (wrap64 (region.start + region.size))).map Op.store ++ w.effects front).filterMap Op.store? =
        addStores c.geometry output region.start (wrap64 (region.start + region.size)) := by
    simp only [List.filterMap_append, Op.filterMap_store?, World.effects,
      Op.filterMap_store?_effects, List.append_nil]
  refine h.memory.enter hlock hsts rfl ?_ (Or.inl ?_) ?_
  · rw [hmem, foldlM_addStores, hroot]
  · intro st hst
    exact grows_of_addStores hst
  · -- the new region itself is being entered; the others are in place, and spared
    intro q r hr hslot hother
    have hne : (output, region) ≠ (q, r) := by
      rintro heq
      obtain rfl := (Prod.mk.inj heq).2
      exact hother rfl rfl
    have hnew : (output, region) ∈ front.policy.regions := by
      rw [hregions]
      exact List.mem_cons_self
    have hold : (q, r) ∈ w.front.policy.regions := by
      rw [hregions] at hr
      exact (List.mem_cons.1 hr).resolve_left (Ne.symm hne)
    refine ⟨fun st hst => addStores_spares (hsafe.head_alone hr hnew hne hslot) hst, ?_⟩
    rw [hmem]
    exact h.safe.anchored hold hslot

end Alloc

/-- The section of an allocation. -/
theorem reportLarge (h : Inv C w) (hcall : w.calls.lookup t = some (b, .allocated))
    (hlock : w.lock = none) (hlarge : c.sizeThresshold ≤ b.size) {output chunksPtr : Nat}
    (hfresh : w.front.policy.regions.lookup output = none)
    (hst : w.report t b output chunksPtr = some w') : Inv C w' := by
  have hen := h.safe.enabled_report hcall chunksPtr hfresh
  simp only [World.report, hlarge, if_true] at hst
  rcases Option.map_eq_some_iff.1 hst with ⟨front, hfront, rfl⟩
  rcases front_of_alloc hlarge hfront with ⟨region, rfl, hregions, hroot⟩
  have hexact := (h.safe.exact.step hen hfront).1
  have hsafe := h.alloc_safe hcall hlarge hfresh hregions hexact
  refine ⟨hsafe, h.alloc_memory hlock hsafe hregions hroot _,
    h.linear.enter hen hfront (h.left_of_idle hlock) rfl rfl rfl ?_ ?_⟩
  · simp only [World.left, World.enter, List.filterMap_append, Op.filterMap_effect?_stores,
      World.effects, Op.filterMap_effect?, List.nil_append]
  · refine (World.pendingUnbinds_skip h.safe.threads hcall (by simp)).trans (List.Perm.of_eq ?_)
    have hsame : (endCall w.calls t).flatMap (World.pendingOf front.policy.regions) =
        (endCall w.calls t).flatMap (World.pendingOf w.front.policy.regions) := by
      refine World.pendingOf_congr ?_
      intro x hx p hp
      rcases h.safe.found x (List.mem_of_mem_filter hx) p (Or.inr hp) with ⟨r, hr, _⟩
      rw [hregions]
      exact (lookup_cons_fresh hfresh hr).trans hr.symm
    exact hsame.symm

/-- The next load of the lookup for a large block leads on towards its region. -/
theorem load_large (h : Inv C w) {l : Load} (hcall : w.calls.lookup t = some (b, .looking l))
    (hlarge : c.sizeThresshold ≤ b.size) :
    ∃ p region, w.front.policy.regions.lookup p = some region ∧ blockOf region = b ∧
      (load c.geometry w.root b.start l = some (.inr (some p)) ∨
        ∃ l', l'.Upper c.geometry ∧ load c.geometry w.root b.start l = some (.inl l')) := by
  rcases h.memory.entered_of_call h.safe hcall hlarge rfl with ⟨p, region, hregion, rfl⟩
  have hupper := (h.memory.looking _ (mem_of_lookup hcall) hlarge).2.1 l rfl
  exact ⟨p, region, h.safe.exact.lookup hregion.1, rfl,
    load_of_anchored (h.memory.anchored p region hregion) hupper⟩

/-- A release that goes on is still on its way. -/
theorem onTheWay (h : Inv C w) (hcall : w.calls.lookup t = some (b, pc))
    (hpc : pc.freeing = true) (hlost : pc' ≠ .lost)
    (hupper : ∀ l, pc' = .looking l → l.Upper c.geometry) : OnTheWay c (t, b, pc') := by
  intro hlarge
  have hway := h.memory.looking _ (mem_of_lookup hcall) hlarge
  exact ⟨hlost, hupper, fun _ => hway.2.2 hpc⟩

/-- One load of a lookup. -/
theorem lookup (h : Inv C w) {l : Load} (hcall : w.calls.lookup t = some (b, .looking l))
    (hpass : c.sizeThresshold ≤ b.size ∨ w.misses b (.looking l) = true)
    (hst : w.runFree t b (.looking l) = some w') : Inv C w' := by
  have hmem := h.safe.mem_blocks_iff hcall
  simp only [World.runFree] at hst
  by_cases hlarge : c.sizeThresshold ≤ b.size
  · rcases h.load_large hcall hlarge with ⟨p, region, hregion, hblock, hload | ⟨l', hl', hload⟩⟩
    · rw [hload] at hst
      obtain rfl := Option.some.inj hst
      have hway : OnTheWay c (t, b, .found p) := h.onTheWay hcall rfl (by simp) (by simp)
      refine h.goOn hcall rfl (by simp) rfl (by simp) hmem ?_ hway
      intro q hq
      obtain rfl : p = q := by simpa using hq
      exact ⟨region, hregion, hblock⟩
    · rw [hload] at hst
      obtain rfl := Option.some.inj hst
      have hway : OnTheWay c (t, b, .looking l') :=
        h.onTheWay hcall rfl (by simp) fun l'' hl'' => Pc.looking.inj hl'' ▸ hl'
      exact h.goOn hcall rfl (by simp) rfl (by simp) hmem (by simp) hway
  · -- a small block is not tracked, whether the lookup goes on or is over
    have hmiss := hpass.resolve_left hlarge
    have hway : ∀ pc', OnTheWay c (t, b, pc') := fun _ hlarge' => absurd hlarge' hlarge
    cases hload : load c.geometry w.root b.start l with
    | none => simp [hload] at hst
    | some next =>
        rcases next with l' | _ | p
        · simp only [hload] at hst
          obtain rfl := Option.some.inj hst
          exact h.goOn hcall rfl (by simp) rfl (by simp) hmem (by simp) (hway _)
        · simp only [hload] at hst
          obtain rfl := Option.some.inj hst
          refine h.goOn hcall rfl (by simp) rfl (by simp) ?_ (by simp) (hway _)
          rw [hmem]
          simp [hlarge]
        · simp [World.misses, hload] at hmiss

/-- `unbind` is called before the section. -/
theorem unbind (h : Inv C w) (hcall : w.calls.lookup t = some (b, .found p))
    (hst : w.runFree t b (.found p) = some w') : Inv C w' := by
  rcases h.safe.found _ (mem_of_lookup hcall) p (Or.inl rfl) with ⟨region, hregion, hblock⟩
  simp only [World.runFree, hregion, Option.map_some] at hst
  obtain rfl := Option.some.inj hst
  have hmem := h.safe.mem_blocks_iff hcall
  have hway : OnTheWay c (t, b, .unbound p) := h.onTheWay hcall rfl (by simp) (by simp)
  refine ⟨h.safe.move hcall h.safe.exact hmem (fun _ _ => Iff.rfl)
    (fun _ _ hregion _ => hregion) ?_, h.memory.goOn h.safe hcall rfl rfl hway _, ?_⟩
  · intro q hq
    obtain rfl : p = q := by simpa using hq
    exact ⟨region, hregion, hblock⟩
  · rcases h.linear with ⟨s, hrun, halike, hahead⟩
    have hone : World.pendingOf w.front.policy.regions (t, b, .unbound p) =
        Plugins.unbind region := by
      simp [World.pendingOf, hregion]
    refine ⟨s, hrun, halike, (hahead.issue region).perm ?_⟩
    have hpending := World.pendingUnbinds_skip h.safe.threads hcall (by simp)
    have hall := hpending.append_left (Plugins.unbind region)
    rw [← hone, ← List.flatMap_cons] at hall
    rw [← hone]
    exact hall

/-- The regions of other blocks stay. -/
theorem lookup_freeNodes {s : State} {region r : ShamblesRegion} {q : RegionPtr}
    (hregion : s.regions.lookup p = some region) (hr : s.regions.lookup q = some r)
    (hne : blockOf r ≠ blockOf region) : (freeNodes s p region).regions.lookup q = some r := by
  have hqp : q ≠ p := by
    rintro rfl
    obtain rfl : region = r := Option.some.inj (hregion.symm.trans hr)
    exact hne rfl
  rw [freeNodes_regions, lookup_filter_ne, if_neg hqp, hr]

/-- The section of a release: what the plugin tracks. -/
theorem release_safe (h : Inv C w) {region : ShamblesRegion}
    (hcall : w.calls.lookup t = some (blockOf region, .unbound p))
    (hregion : w.front.policy.regions.lookup p = some region) {root : Root c.geometry}
    (hexact : Front.Exact policy ⟨root, freeNodes w.front.policy p region⟩) :
    Safe ⟨root, freeNodes w.front.policy p region⟩ w.held
      (setCall w.calls t (blockOf region) .deleting) := by
  have hblocks : Front.blocks policy ⟨root, freeNodes w.front.policy p region⟩ =
      (w.front.blocks policy).filter fun b => b ≠ blockOf region := by
    simp only [Front.blocks, policy, freeNodes_regions]
    exact Tells.blocks_filter h.safe.exact (mem_of_lookup hregion)
  refine h.safe.move hcall hexact ?_ ?_ (fun _ _ hr hne => lookup_freeNodes hregion hr hne) (by simp)
  · simp [hblocks, Pc.tracking]
  · intro b hne
    simp [hblocks, hne]

/-- The section of a release: the stores it makes. -/
theorem release_memory (h : Inv C w) {region : ShamblesRegion} (hlock : w.lock = none)
    (hregion : w.front.policy.regions.lookup p = some region) {root : Root c.geometry}
    (hroot : deleteRegion c.geometry w.front.root region = some root) (b : Allocation) :
    Memory { w.enter (.thread t) (freeReport b) ⟨root, freeNodes w.front.policy p region⟩
        (w.effects ⟨root, freeNodes w.front.policy p region⟩ ++
          (deleteStores c.geometry region).map .store) with
      calls := setCall w.calls t b .deleting } := by
  have hlive := mem_of_lookup hregion
  have hmem : w.root = w.front.root := h.memory.root_eq (h.memory.stores_of_idle hlock)
  have hsts : (w.effects ⟨root, freeNodes w.front.policy p region⟩ ++
      (deleteStores c.geometry region).map Op.store).filterMap Op.store? =
        deleteStores c.geometry region := by
    simp only [List.filterMap_append, World.effects, Op.filterMap_store?_effects,
      Op.filterMap_store?, List.nil_append]
  refine h.memory.enter hlock hsts rfl ?_ (Or.inr ⟨?_, by simp⟩) ?_
  · rw [hmem]
    exact foldlM_deleteStores _ hroot
  · intro st hst
    exact shrinks_of_deleteStores hst
  · intro q r hr hslot _
    have hr' : (q, r) ∈ (freeNodes w.front.policy p region).regions := hr
    rw [freeNodes_regions, List.mem_filter] at hr'
    have hne : (p, region) ≠ (q, r) := by
      rintro heq
      exact absurd (congrArg Prod.fst heq).symm (by simpa using hr'.2)
    have hext := (h.safe.exact.fits hlive).extent
    refine ⟨fun st hst => deleteStores_spares hext (h.safe.head_alone hr'.1 hlive hne hslot) hst, ?_⟩
    rw [hmem]
    exact h.safe.anchored hr'.1 hslot

/-- The section of a release. -/
theorem release (h : Inv C w) (hcall : w.calls.lookup t = some (b, .unbound p))
    (hlock : w.lock = none) (hst : w.runFree t b (.unbound p) = some w') : Inv C w' := by
  simp only [World.runFree, Option.bind_eq_bind, Option.bind_eq_some_iff] at hst
  rcases hst with ⟨region, hregion, root, hroot, hw'⟩
  obtain rfl := Option.some.inj hw'
  rcases h.safe.found _ (mem_of_lookup hcall) p (Or.inr rfl) with ⟨region', hregion', hblock⟩
  obtain rfl : region' = region := Option.some.inj (hregion'.symm.trans hregion)
  obtain rfl : blockOf region' = b := hblock
  have hlive := mem_of_lookup hregion
  have hlarge := (h.safe.of_live hlive).2
  have hslot := (h.memory.looking _ (mem_of_lookup hcall) hlarge).2.2 rfl
  have hget : Structures.getRegion c.geometry w.front.root (blockOf region').start = some p :=
    (h.safe.exact.mapped.getRegion_start_iff c.regular c.root_single hlive).2 hslot
  have hheld := (h.safe.rest hcall).1
  rcases h.linear with ⟨s, hrun, halike, hahead⟩
  -- the run without threads calls `unbind` now
  rcases halike.freeNodes hget hregion hroot with ⟨s', effects, hs', halike', htrace, htrace'⟩
  have hen : s.Enabled policy (freeReport (blockOf region')) := (h.safe.suits _ hheld).inWindow
  have hexact := halike'.exact ((halike.symm.exact h.safe.exact).step hen hs').1
  refine ⟨h.release_safe hcall hregion hexact, h.release_memory hlock hregion hroot _, s',
    hrun.snoc hen hs', halike', ?_⟩
  have hother := World.pendingUnbinds_perm h.safe.threads hcall
  have hone : World.pendingOf w.front.policy.regions (t, blockOf region', .unbound p) =
      Plugins.unbind region' := by
    simp [World.pendingOf, hregion]
  rw [hone] at hother
  rw [h.left_of_idle hlock, List.append_nil] at hahead
  have hleft : (w.effects ⟨root, freeNodes w.front.policy p region'⟩ ++
      (deleteStores c.geometry region').map Op.store).filterMap Op.effect? = effects := by
    simp only [List.filterMap_append, World.effects, htrace', List.drop_left, Op.filterMap_effect?,
      Op.filterMap_effect?_stores, List.append_nil]
  simp only [World.left, World.enter, hleft]
  rw [htrace]
  refine ((hahead.perm hother).settle.append effects).perm (List.Perm.of_eq ?_)
  refine (World.pendingOf_congr ?_).symm
  intro x hx q hq
  rcases h.safe.found x (List.mem_of_mem_filter hx) q (Or.inr hq) with ⟨r, hr, hxblock⟩
  have hne : blockOf r ≠ blockOf region' := hxblock ▸ (h.safe.rest hcall).2.2.1 x hx
  exact (lookup_freeNodes hregion hr hne).trans hr.symm

/-- The memory of a block is given back. -/
theorem giveBack (h : Inv C w) (hcall : w.calls.lookup t = some (b, .reported)) :
    Inv C { w with
      calls := endCall w.calls t
      held := w.held.filter fun b' => b' ≠ b } := by
  refine ⟨h.safe.finish hcall List.filter_sublist ?_ ?_, h.memory.close h.safe hcall rfl _,
    h.linear.quiet rfl rfl rfl (World.pendingUnbinds_skip h.safe.threads hcall (by simp))⟩
  · intro b' hne
    simp [hne]
  · rw [h.safe.mem_blocks_iff hcall]
    simp [Pc.tracking]

theorem sample (h : Inv C w) {addr : Nat} (hwindow : c.InWindow addr) (hlock : w.lock = none)
    {front : Front c State} (hfront : w.front.step policy (.sample addr) = some front) :
    Inv C (w.enter .sampler (.sample addr) front (w.effects front)) := by
  have hen : w.front.Enabled policy (.sample addr) := hwindow
  have hexact := (h.safe.exact.step hen hfront).1
  have hroot : front.root = w.front.root ∧ front.policy.regions = w.front.policy.regions := by
    rcases Option.map_eq_some_iff.1 hfront with ⟨u, hu, rfl⟩
    exact ⟨rfl, policy.regions_sample _ _ _ _ hu⟩
  have hblocks : front.blocks policy = w.front.blocks policy := by
    simp [Front.blocks, policy, hroot.2]
  refine ⟨⟨hexact, h.safe.apart, h.safe.suits, h.safe.threads, h.safe.blocks, h.safe.busy,
      hblocks ▸ h.safe.tracked, hroot.2 ▸ h.safe.found⟩,
    h.memory.enterSample hlock (Op.filterMap_store?_effects _) hroot.1 hroot.2,
    h.linear.enter hen hfront (h.left_of_idle hlock) rfl rfl rfl (Op.filterMap_effect? _) ?_⟩
  simp only [World.pendingUnbinds, World.enter, hroot.2, List.Perm.refl]

/-- The section in progress goes on. -/
theorem work (h : Inv C w) (hst : w.work = some w') : Inv C w' := by
  cases htodo : w.todo with
  | nil => simp [World.work, htodo] at hst
  | cons op rest =>
      cases op with
      | effect e =>
          simp only [World.work, htodo] at hst
          obtain rfl := Option.some.inj hst
          refine ⟨h.safe, h.memory.effect htodo, h.linear.quiet rfl rfl ?_ (List.Perm.refl _)⟩
          simp [World.left, htodo, Op.effect?]
      | store st =>
          simp only [World.work, htodo] at hst
          rcases Option.map_eq_some_iff.1 hst with ⟨root, hroot, rfl⟩
          refine ⟨h.safe.relabel (World.mark_fst root) (World.mark_block root)
              (World.mark_tracking root) ?_, h.memory.store h.safe htodo hroot,
            h.linear.quiet rfl rfl ?_ (List.Perm.of_eq ?_)⟩
          · intro x p hp
            refine World.mark_eq root ?_
            rcases hp with hp | hp
            · rw [hp]
              exact Pc.noConfusion
            · rw [hp]
              exact Pc.noConfusion
          · simp only [World.left, htodo]
            rfl
          · -- a lookup that is lost has not called `unbind`
            simp only [World.pendingUnbinds, List.flatMap_map]
            refine List.flatMap_congr ?_
            intro x _
            rcases World.mark_cases root x with hsame | ⟨⟨l, hl, -⟩, hlost⟩
            · rw [hsame]
            · rw [hlost]
              simp [World.pendingOf, hl]

/-- The calls of other threads are outside of the section. -/
theorem others_outside (h : Inv C w) (hlock : w.lock = some (.thread t)) :
    ∀ x ∈ endCall w.calls t, x.2.2.inside = false ∧ OnTheWay c x := by
  intro x hx
  have hx' := List.mem_of_mem_filter hx
  refine ⟨?_, h.memory.looking x hx'⟩
  have hne : x.1 ≠ t := by simpa using (List.mem_filter.1 hx).2
  rw [← Bool.not_eq_true, h.memory.inside x hx', hlock]
  simpa using Ne.symm hne

theorem unlock (h : Inv C w) (htodo : w.todo = []) (hst : w.unlock = some w') : Inv C w' := by
  cases hlock : w.lock with
  | none => simp [World.unlock, hlock] at hst
  | some holder =>
      cases holder with
      | sampler =>
          simp only [World.unlock, hlock] at hst
          obtain rfl := Option.some.inj hst
          refine ⟨h.safe, h.memory.unlock h.safe htodo ?_,
            h.linear.quiet rfl rfl rfl (List.Perm.refl _)⟩
          intro x hx
          refine ⟨?_, h.memory.looking x hx⟩
          rw [← Bool.not_eq_true, h.memory.inside x hx, hlock]
          simp
      | thread t =>
          have hothers := h.others_outside hlock
          cases hcall : w.calls.lookup t with
          | none => simp [World.unlock, hlock, hcall] at hst
          | some call =>
              rcases call with ⟨b, pc⟩
              have hmem := h.safe.mem_blocks_iff hcall
              cases pc with
              | adding =>
                  simp only [World.unlock, hlock, hcall] at hst
                  obtain rfl := Option.some.inj hst
                  refine ⟨h.safe.finish hcall (List.Sublist.refl _) (fun _ _ => Iff.rfl) ?_,
                    h.memory.unlock h.safe htodo hothers, h.linear.quiet rfl rfl rfl
                      (World.pendingUnbinds_skip h.safe.threads hcall (by simp))⟩
                  simp [hmem, Pc.tracking, (h.safe.rest hcall).1]
              | deleting =>
                  simp only [World.unlock, hlock, hcall] at hst
                  obtain rfl := Option.some.inj hst
                  refine ⟨h.safe.move hcall h.safe.exact hmem (fun _ _ => Iff.rfl)
                      (fun _ _ hregion _ => hregion) (by simp), h.memory.unlock h.safe htodo ?_,
                    h.linear.quiet rfl rfl rfl (h.pending_goOn hcall (by simp) (by simp))⟩
                  intro x hx
                  rcases List.mem_cons.1 hx with rfl | hx
                  · exact ⟨rfl, by simp [OnTheWay, Pc.freeing]⟩
                  · exact hothers x hx
              | _ => simp [World.unlock, hlock, hcall] at hst

/-- A lookup for a large block is never lost. -/
theorem not_lost (h : Inv C w) (hcall : w.calls.lookup t = some (b, .lost))
    (hpass : w.Passes (.run t)) : False := by
  simp only [World.Passes, hcall, Option.all_some, World.misses, Bool.or_false,
    decide_eq_true_eq] at hpass
  exact (h.memory.looking _ (mem_of_lookup hcall) hpass).1 rfl

theorem passes_run (hcall : w.calls.lookup t = some (b, pc)) (hpass : w.Passes (.run t)) :
    c.sizeThresshold ≤ b.size ∨ w.misses b pc = true := by
  simpa only [World.Passes, hcall, Option.all_some, Bool.or_eq_true, decide_eq_true_eq] using hpass

theorem step (h : Inv C w) {a : Action} (hen : w.Enabled a) (hpass : w.Passes a)
    (hst : w.step a = some w') : Inv C w' := by
  cases a with
  | malloc t b =>
      rcases hen with ⟨hidle, hsuits, hapart⟩
      obtain rfl := Option.some.inj hst
      have hway : OnTheWay c (t, b, .allocated) := by simp [OnTheWay, Pc.freeing]
      exact ⟨h.safe.malloc hidle hsuits hapart, h.memory.begin hidle rfl hway _,
        h.linear.quiet rfl rfl rfl (pending_begin hidle (by simp))⟩
  | report t output chunksPtr =>
      rcases hen with ⟨hcall, hfresh⟩
      rcases (Option.any_eq_true _ _).1 hcall with ⟨⟨b, pc⟩, hlookup, hpc⟩
      simp only [decide_eq_true_eq] at hpc
      obtain ⟨rfl, hfree⟩ := hpc
      simp only [World.step, hlookup] at hst
      by_cases hlarge : c.sizeThresshold ≤ b.size
      · exact h.reportLarge hlookup (hfree hlarge) hlarge hfresh hst
      · simp only [World.report, hlarge, if_false] at hst
        obtain rfl := Option.some.inj hst
        exact h.reportSmall hlookup hlarge
  | free t b =>
      rcases hen with ⟨hidle, hheld, hquiet⟩
      obtain rfl := Option.some.inj hst
      refine ⟨h.safe.free hidle hheld hquiet _, h.memory.begin hidle rfl ?_ _,
        h.linear.quiet rfl rfl rfl (pending_begin hidle (by simp))⟩
      intro hlarge
      refine ⟨by simp, ?_, fun _ => hpass hlarge⟩
      rintro l ⟨⟩
      exact Nat.zero_le _
  | run t =>
      rcases (Option.any_eq_true _ _).1 hen with ⟨⟨b, pc⟩, hlookup, hpc⟩
      simp only [World.step, hlookup] at hst
      cases pc with
      | looking l => exact h.lookup hlookup (passes_run hlookup hpass) hst
      | lost => exact absurd hpass (h.not_lost hlookup)
      | found p => exact h.unbind hlookup hst
      | unbound p => exact h.release hlookup (by simpa [Pc.ready] using hpc) hst
      | reported =>
          obtain rfl := Option.some.inj hst
          exact h.giveBack hlookup
      | _ => cases hst
  | sample addr =>
      rcases Option.map_eq_some_iff.1 hst with ⟨front, hfront, rfl⟩
      exact h.sample hen.1 hen.2 hfront
  | work => exact h.work hst
  | unlock => exact h.unlock (by simpa using hen.2) hst

theorem run {as : List Action}
    (h : Run ((World.system c).restrict World.Passes) (World.init c C) as w) : Inv C w :=
  Run.invariant_state (init c C) (fun _ _ _ hw (hen : World.Enabled _ _ ∧ _) hst =>
    hw.step hen.1 hen.2 hst) h

/-- Undisturbed, the lookup for a small block answers with no region, and so does that for a large one
on a slot boundary: in the slot where it starts, it is not entered. -/
theorem getRegion_eq_none (h : Inv C w) (hb : b ∈ w.held)
    (hmiss : b.size < c.sizeThresshold ∨ ¬ InSlot c b.start) :
    Structures.getRegion c.geometry w.front.root b.start = none := by
  cases hget : Structures.getRegion c.geometry w.front.root b.start with
  | none => rfl
  | some p =>
      rcases h.safe.block_of_getRegion hb hget with ⟨region, hregion, rfl⟩
      have hlive := mem_of_lookup hregion
      rcases hmiss with hsmall | hslot
      · exact absurd (h.safe.of_live hlive).2 (Nat.not_le.2 hsmall)
      · have hfound := h.safe.exact.mapped.getRegion_start_iff c.regular c.root_single hlive
        exact absurd (hfound.1 hget) hslot

/-- A callback has an outcome since it has one in the run without threads. -/
theorem front_defined (h : Inv C w) (hC : 1 ≤ C) (hmax : C ≤ INT_MAX) {r : Report}
    (hr : w.front.Enabled policy r) : ∃ front, w.front.step policy r = some front := by
  rcases h.linear with ⟨s, hrun, halike, _⟩
  rcases tells_run hmax hrun with ⟨hex, href, _⟩
  have hpolicy : ∀ e, policy.system.enabled s.policy e → ∃ t, policy.step s.policy e = some t := by
    intro e he
    rcases href.step hC he with ⟨t, ht, _⟩
    exact ⟨t, ht⟩
  rcases hex.step_defined (halike.enabled hr) (fun e _ => hpolicy e) with ⟨s', hs'⟩
  rcases halike.step hs' with ⟨front, _, hstep, _⟩
  exact ⟨front, hstep⟩

theorem runFree_defined (h : Inv C w) (hcall : w.calls.lookup t = some (b, pc))
    (hready : pc.ready w.lock.isNone = true) (hpass : w.Passes (.run t)) :
    ∃ w', w.runFree t b pc = some w' := by
  have hmem := mem_of_lookup hcall
  cases pc with
  | looking l =>
      simp only [World.runFree]
      rcases passes_run hcall hpass with hlarge | hmiss
      · rcases h.load_large hcall hlarge with ⟨p, _, _, _, hload | ⟨l', -, hload⟩⟩
        · rw [hload]
          exact ⟨_, rfl⟩
        · rw [hload]
          exact ⟨_, rfl⟩
      · cases hload : load c.geometry w.root b.start l with
        | none => simp [World.misses, hload] at hmiss
        | some next =>
            rcases next with l' | _ | p
            · exact ⟨_, rfl⟩
            · exact ⟨_, rfl⟩
            · exact ⟨_, rfl⟩
  | lost => exact absurd hpass (h.not_lost hcall)
  | found p =>
      rcases h.safe.found _ hmem p (Or.inl rfl) with ⟨region, hregion, _⟩
      simp only [World.runFree, hregion, Option.map_some]
      exact ⟨_, rfl⟩
  | unbound p =>
      rcases h.safe.found _ hmem p (Or.inr rfl) with ⟨region, hregion, _⟩
      rcases h.safe.exact.mapped.tracks.delete Matches.maintained hregion with ⟨root, hroot, _⟩
      have hroot' : deleteRegion c.geometry w.front.root region = some root := hroot
      simp only [World.runFree, hregion, hroot', Option.bind_eq_bind, Option.bind_some]
      exact ⟨_, rfl⟩
  | reported => exact ⟨_, rfl⟩
  | _ => cases hready

theorem work_defined (h : Inv C w) (htodo : w.todo ≠ []) : ∃ w', w.work = some w' := by
  cases hops : w.todo with
  | nil => exact absurd hops htodo
  | cons op rest =>
      cases op with
      | effect e =>
          simp only [World.work, hops]
          exact ⟨_, rfl⟩
      | store st =>
          have hrest := h.memory.rest
          simp only [World.stores, hops, List.filterMap_cons, Op.store?, List.foldlM_cons,
            Option.bind_eq_bind, Option.bind_eq_some_iff] at hrest
          rcases hrest with ⟨root, hroot, -⟩
          simp only [World.work, hops, hroot, Option.map_some]
          exact ⟨_, rfl⟩

theorem unlock_defined (h : Inv C w) (hlock : w.lock.isSome = true) : ∃ w', w.unlock = some w' := by
  rcases Option.isSome_iff_exists.1 hlock with ⟨holder, hholder⟩
  cases holder with
  | sampler =>
      simp only [World.unlock, hholder]
      exact ⟨_, rfl⟩
  | thread t =>
      rcases h.memory.holder t hholder with ⟨⟨_, b, pc⟩, hx, rfl⟩
      have hcall : w.calls.lookup _ = some (b, pc) := lookup_of_mem h.safe.threads hx
      have hinside := (h.memory.inside _ hx).2 hholder
      simp only [World.unlock, hholder, hcall]
      cases pc with
      | adding => exact ⟨_, rfl⟩
      | deleting => exact ⟨_, rfl⟩
      | _ => cases hinside

theorem defined (h : Inv C w) (hC : 1 ≤ C) (hmax : C ≤ INT_MAX) {a : Action} (hen : w.Enabled a)
    (hpass : w.Passes a) : ∃ w', w.step a = some w' := by
  cases a with
  | malloc t b => exact ⟨_, rfl⟩
  | report t output chunksPtr =>
      rcases hen with ⟨hcall, hfresh⟩
      rcases (Option.any_eq_true _ _).1 hcall with ⟨⟨b, pc⟩, hlookup, hpc⟩
      simp only [decide_eq_true_eq] at hpc
      obtain ⟨rfl, -⟩ := hpc
      simp only [World.step, hlookup, World.report]
      by_cases hlarge : c.sizeThresshold ≤ b.size
      · rcases h.front_defined hC hmax (h.safe.enabled_report hlookup chunksPtr hfresh) with
          ⟨front, hst⟩
        simp only [hlarge, if_true, hst, Option.map_some]
        exact ⟨_, rfl⟩
      · simp only [hlarge, if_false]
        exact ⟨_, rfl⟩
  | free t b => exact ⟨_, rfl⟩
  | run t =>
      rcases (Option.any_eq_true _ _).1 hen with ⟨⟨b, pc⟩, hlookup, hpc⟩
      simp only [World.step, hlookup]
      exact h.runFree_defined hlookup hpc hpass
  | sample addr =>
      rcases h.front_defined hC hmax (r := .sample addr) hen.1 with ⟨front, hst⟩
      simp only [World.step, hst, Option.map_some]
      exact ⟨_, rfl⟩
  | work => exact h.work_defined (by simpa [World.Enabled] using hen)
  | unlock => exact h.unlock_defined hen.1

end Inv

/-! ## The threads together -/

/-- What concurrent callers may rely on. -/
structure Serial {c : Setup} (C : Nat) (w : World c) : Prop where
  linear : Linear C w
  /-- What is left of the section in progress turns the memory into the map of that run. -/
  rest : w.stores.foldlM Store.apply w.root = some w.front.root
  idle : w.lock = none → w.root = w.front.root ∧ w.left = []
  /-- The fast chunks are those the order of the sections asks for. -/
  fast : ∀ n k, chunkOf w.front.policy.regions n = some k →
    (w.front.policy.loc n = .fast ↔ k ∈ (Ideal.after c w.order).order.take C)
  /-- The plugin tracks the large blocks that are handed out, apart from those a thread is about to
  report or has reported as freed; so what it tracks never overlaps. -/
  tracked : ∀ b, b ∈ w.front.blocks policy ↔ b ∈ w.held ∧ c.sizeThresshold ≤ b.size ∧
    ∀ x ∈ w.calls, x.2.1 = b → x.2.2.tracking = true
  disjoint : w.front.policy.regions.Pairwise fun r r' => RangesApart r.2 r'.2
  /-- A thread releases the region of its own block, whatever its lookup has met. -/
  found : ∀ x ∈ w.calls, ∀ p, x.2.2 = .found p ∨ x.2.2 = .unbound p →
    ∃ region, w.front.policy.regions.lookup p = some region ∧ blockOf region = x.2.1
  /-- While the map does not change, the lookup for a block that is small or starts on a slot boundary
  comes to nothing. -/
  missed : w.stores = [] → ∀ b ∈ w.held, b.size < c.sizeThresshold ∨ ¬ InSlot c b.start →
    Answers c.geometry w.root b.start (.pointer 0) none
  /-- No thread can get stuck. -/
  defined : ∀ a, w.Enabled a → w.Passes a → ∃ w', w.step a = some w'

/-- Whatever the interleaving of the threads, the plugin is in the state a run without threads
reaches by the sections under its lock, in their order. -/
theorem lru_linearizable {c : Setup} {C : Nat} (hC : 1 ≤ C) (hmax : C ≤ INT_MAX)
    {as : List Action} {w : World c}
    (h : Run ((World.system c).restrict World.Passes) (World.init c C) as w) : Serial C w := by
  have hinv := Inv.run h
  refine ⟨hinv.linear, hinv.memory.rest, ?_, ?_, hinv.safe.tracked, hinv.safe.exact.mapped.disjoint,
    hinv.safe.found, ?_, fun a hen hpass => hinv.defined hC hmax hen hpass⟩
  · intro hlock
    exact ⟨hinv.memory.root_eq (hinv.memory.stores_of_idle hlock), hinv.left_of_idle hlock⟩
  · intro n k hk
    rcases hinv.linear with ⟨s, hrun, halike, _⟩
    rcases tells_run hmax hrun with ⟨hex, href, htells⟩
    have hloc : s.policy.clear.loc n = w.front.policy.clear.loc n := by rw [halike.policy]
    have hloc' : s.policy.loc n = w.front.policy.loc n := hloc
    rw [← halike.regions] at hk
    rw [← hloc', href.mem_take_iff (liveNode_of_chunkOf hk)]
    exact Relabel.mem_iff (List.forall₂_take C htells.order) hex.oneToOne hk
  · intro hstores b hb hmiss
    have hnone := answers_getRegion w.front.root b.start
    rw [hinv.getRegion_eq_none hb hmiss] at hnone
    rw [hinv.memory.root_eq hstores]
    exact hnone

/-- Thread 1 looks up and unbinds its block while thread 2 makes the first stores for another one. -/
theorem lru_linearizable_two_threads :
    ∃ w, Run ((World.system .halfSlots).restrict World.Passes) (World.init .halfSlots 2)
        ([.malloc 1 ⟨0x18000, 0x10000⟩, .report 1 1 0x800] ++ List.replicate 16 .work ++
          [.unlock, .malloc 2 ⟨0x2a000, 0x10000⟩, .report 2 2 0x900, .work, .work,
            .free 1 ⟨0x18000, 0x10000⟩, .run 1, .run 1, .work, .work, .run 1, .run 1, .run 1]) w ∧
      Serial 2 w := by
  have hexec := Run.of_exec ((World.system .halfSlots).restrict World.Passes) (World.init .halfSlots 2)
    ([.malloc 1 ⟨0x18000, 0x10000⟩, .report 1 1 0x800] ++ List.replicate 16 .work ++
      [.unlock, .malloc 2 ⟨0x2a000, 0x10000⟩, .report 2 2 0x900, .work, .work,
        .free 1 ⟨0x18000, 0x10000⟩, .run 1, .run 1, .work, .work, .run 1, .run 1, .run 1])
    (by decide +kernel)
  exact hexec.imp fun w hw => ⟨hw.2, lru_linearizable (by decide) (by decide) hw.2⟩

end Lru
end Shambles
