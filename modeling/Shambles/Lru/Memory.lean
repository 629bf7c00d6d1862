import Shambles.Lru.Threads

/-!
# Memory — the region map while a section is in progress

A section under the lock stores to the map one word after the other, and lookups go on.  What is left
of the section leads to the map it will leave (`rest`).  The stores of an allocation free nothing and
those of a release allocate nothing, and neither touches the high half of the record in which another
region starts.  So every region that has been entered is in place at any time (`anchored`), and a
lookup for its block does not lose its way (`looking`).
-/

namespace Shambles
namespace Lru

open AssocList Structures Plugins
open Jemalloc (Allocation)

/-- The region is tracked, starts inside a slot, and no thread is entering it right now. -/
def World.Entered {c : Setup} (w : World c) (p : RegionPtr) (region : ShamblesRegion) : Prop :=
  (p, region) ∈ w.front.policy.regions ∧ InSlot c region.start ∧
    ∀ x ∈ w.calls, x.2.1 = blockOf region → x.2.2 ≠ .adding

/-- A release of a large block has not lost its way to the region of the block. -/
def OnTheWay (c : Setup) (x : Call) : Prop :=
  c.sizeThresshold ≤ x.2.1.size →
    x.2.2 ≠ .lost ∧ (∀ l, x.2.2 = .looking l → l.Upper c.geometry) ∧
      (x.2.2.freeing = true → InSlot c x.2.1.start)

structure Memory {c : Setup} (w : World c) : Prop where
  /-- What is left of the section in progress leads to its end. -/
  rest : w.stores.foldlM Store.apply w.root = some w.front.root
  /-- The section only adds, or it only deletes. -/
  oneWay : (∀ st ∈ w.stores, st.write.grows = true) ∨
    (∀ st ∈ w.stores, st.write.shrinks = true) ∧ ∀ x ∈ w.calls, x.2.2 ≠ .adding
  spares : ∀ st ∈ w.stores, ∀ p region, w.Entered p region → st.Spares region.start
  anchored : ∀ p region, w.Entered p region → Anchored c.geometry w.root region.start p
  looking : ∀ x ∈ w.calls, OnTheWay c x
  idle : w.lock = none → w.todo = []
  sampling : w.lock = some .sampler → w.stores = []
  inside : ∀ x ∈ w.calls, x.2.2.inside = true ↔ w.lock = some (.thread x.1)
  holder : ∀ t, w.lock = some (.thread t) → ∃ x ∈ w.calls, x.1 = t

namespace Memory

variable {c : Setup} {C : Nat} {w w' : World c} {t : Nat} {b : Allocation} {pc pc' : Pc}
  {p : RegionPtr} {region : ShamblesRegion}

theorem init (c : Setup) (C : Nat) : Memory (World.init c C) where
  rest := rfl
  oneWay := Or.inl (by simp [World.init, World.stores])
  spares := by simp [World.init, World.stores]
  anchored := by
    rintro p region ⟨hlive, -⟩
    cases hlive
  looking := by simp [World.init]
  idle := fun _ => rfl
  sampling := fun _ => rfl
  inside := by simp [World.init]
  holder := by
    intro t ht
    cases ht

/-- Between the stores of two sections the memory is the map of the plugin. -/
theorem root_eq (h : Memory w) (hstores : w.stores = []) : w.root = w.front.root := by
  have hrest := h.rest
  rw [hstores] at hrest
  exact Option.some.inj hrest

theorem stores_of_idle (h : Memory w) (hlock : w.lock = none) : w.stores = [] := by
  simp [World.stores, h.idle hlock]

end Memory

/-- A region the plugin tracks that starts inside a slot is in place in its map. -/
theorem Safe.anchored {c : Setup} {front : Front c State} {held : List Allocation}
    {calls : List Call} (h : Safe front held calls) {p : RegionPtr} {region : ShamblesRegion}
    (hlive : (p, region) ∈ front.policy.regions) (hslot : InSlot c region.start) :
    Anchored c.geometry front.root region.start p :=
  h.exact.mapped.anchored c.regular c.root_single hlive hslot

/-- A region leaves the record in which another one starts. -/
theorem Safe.head_alone {c : Setup} {front : Front c State} {held : List Allocation}
    {calls : List Call} (h : Safe front held calls) {p p' : RegionPtr}
    {region region' : ShamblesRegion} (hlive : (p, region) ∈ front.policy.regions)
    (hlive' : (p', region') ∈ front.policy.regions) (hne : (p', region') ≠ (p, region))
    (hslot : InSlot c region.start) :
    ∀ slot ∈ slots c.geometry region'.start (wrap64 (region'.start + region'.size)),
      c.geometry.path slot.1 = c.geometry.path region.start → slot.2.high = false :=
  (h.exact.fits hlive).head_alone c.regular c.root_single (h.exact.fits hlive')
    (h.exact.mapped.apart_of_mem hlive' hlive hne) hslot

namespace Memory

variable {c : Setup} {C : Nat} {w w' : World c} {t : Nat} {b : Allocation} {pc pc' : Pc}
  {p : RegionPtr} {region : ShamblesRegion}

/-! ### Steps outside of a section -/

/-- Calls come, go and move on outside of sections. -/
theorem outside (h : Memory w) (hroot : w'.root = w.root) (hfront : w'.front = w.front)
    (hlock : w'.lock = w.lock) (htodo : w'.todo = w.todo)
    (hkept : ∀ x ∈ w.calls, x.2.2.inside = true → x ∈ w'.calls)
    (hnew : ∀ x ∈ w'.calls, x ∈ w.calls ∨
      x.2.2.inside = false ∧ w.lock ≠ some (.thread x.1) ∧ OnTheWay c x) : Memory w' := by
  have hstores : w'.stores = w.stores := by simp only [World.stores, htodo]
  have hentered : ∀ p region, w'.Entered p region → w.Entered p region := by
    rintro p region ⟨hlive, hslot, hcalls⟩
    refine ⟨hfront ▸ hlive, hslot, ?_⟩
    intro x hx hxb hadding
    exact hcalls x (hkept x hx (by rw [hadding]; rfl)) hxb hadding
  refine ⟨?_, ?_, ?_, ?_, ?_, ?_, ?_, ?_, ?_⟩
  · rw [hstores, hroot, hfront]
    exact h.rest
  · rw [hstores]
    refine h.oneWay.imp_right (And.imp_right ?_)
    intro hnone x hx hadding
    rcases hnew x hx with hold | ⟨hout, _⟩
    · exact hnone x hold hadding
    · simp [hadding, Pc.inside] at hout
  · rw [hstores]
    intro st hst p region hregion
    exact h.spares st hst p region (hentered p region hregion)
  · intro p region hregion
    rw [hroot]
    exact h.anchored p region (hentered p region hregion)
  · intro x hx
    rcases hnew x hx with hold | ⟨-, -, hway⟩
    · exact h.looking x hold
    · exact hway
  · rw [hlock, htodo]
    exact h.idle
  · rw [hlock, hstores]
    exact h.sampling
  · intro x hx
    rw [hlock]
    rcases hnew x hx with hold | ⟨hout, hfree, -⟩
    · exact h.inside x hold
    · simp [hout, hfree]
  · intro t ht
    rw [hlock] at ht
    rcases h.holder t ht with ⟨x, hx, rfl⟩
    exact ⟨x, hkept x hx ((h.inside x hx).2 ht), rfl⟩

/-- A call begins. -/
theorem begin (h : Memory w) (hidle : w.calls.lookup t = none) (hpc : pc.inside = false)
    (hway : OnTheWay c (t, b, pc)) (held : List Allocation) :
    Memory { w with held := held, calls := setCall w.calls t b pc } := by
  have hmem : ∀ x, x ∈ setCall w.calls t b pc ↔ x = (t, b, pc) ∨ x ∈ w.calls :=
    Safe.mem_setCall_of_idle hidle
  refine h.outside rfl rfl rfl rfl (fun x hx _ => (hmem x).2 (Or.inr hx)) ?_
  intro x hx
  rcases (hmem x).1 hx with rfl | hx
  · refine Or.inr ⟨hpc, ?_, hway⟩
    intro hlock
    rcases h.holder t hlock with ⟨y, hy, hyt⟩
    exact notMem_keys_of_lookup hidle (List.mem_map.2 ⟨y, hy, hyt⟩)
  · exact Or.inl hx

/-- The calls of a thread that holds the lock are not ended by other threads. -/
theorem kept (hs : Safe w.front w.held w.calls) (hcall : w.calls.lookup t = some (b, pc))
    (hpc : pc.inside = false) : ∀ x ∈ w.calls, x.2.2.inside = true → x ∈ endCall w.calls t := by
  intro x hx hinside
  rcases ((hs.rest hcall).2.2.2 x).1 hx with rfl | hx
  · exact absurd (hpc.symm.trans hinside) Bool.false_ne_true
  · exact hx

/-- A call goes on outside of sections. -/
theorem goOn (h : Memory w) (hs : Safe w.front w.held w.calls)
    (hcall : w.calls.lookup t = some (b, pc)) (hpc : pc.inside = false) (hpc' : pc'.inside = false)
    (hway : OnTheWay c (t, b, pc')) (trace : List Plugins.Effect) :
    Memory { w with trace := trace, calls := setCall w.calls t b pc' } := by
  have hout : w.lock ≠ some (.thread t) := by
    intro hlock
    have hinside := (h.inside _ (mem_of_lookup hcall)).2 hlock
    exact absurd (hpc.symm.trans hinside) Bool.false_ne_true
  refine h.outside rfl rfl rfl rfl
    (fun x hx hinside => List.mem_cons_of_mem _ (kept hs hcall hpc x hx hinside)) ?_
  intro x hx
  rcases List.mem_cons.1 hx with rfl | hx
  · exact Or.inr ⟨hpc', hout, hway⟩
  · exact Or.inl (List.mem_of_mem_filter hx)

/-- A call ends outside of sections. -/
theorem close (h : Memory w) (hs : Safe w.front w.held w.calls)
    (hcall : w.calls.lookup t = some (b, pc)) (hpc : pc.inside = false) (held : List Allocation) :
    Memory { w with held := held, calls := endCall w.calls t } :=
  h.outside rfl rfl rfl rfl (kept hs hcall hpc) fun _ hx => Or.inl (List.mem_of_mem_filter hx)

/-! ### Sections -/

/-- Without the lock, no call is inside. -/
theorem none_inside (h : Memory w) (hlock : w.lock = none) :
    ∀ x ∈ w.calls, x.2.2.inside = false := by
  intro x hx
  rw [← Bool.not_eq_true, h.inside x hx, hlock]
  exact fun hnone => nomatch hnone

/-- A thread takes the lock for a section that makes the stores `sts`. -/
theorem enter (h : Memory w) (hlock : w.lock = none) {front : Front c State} {r : Plugins.Report}
    {todo : List (Op c.geometry)} {sts : List (Store c.geometry)}
    (hsts : todo.filterMap Op.store? = sts) (hpc' : pc'.inside = true)
    (hrest : sts.foldlM Store.apply w.root = some front.root)
    (hone : (∀ st ∈ sts, st.write.grows = true) ∨
      (∀ st ∈ sts, st.write.shrinks = true) ∧ pc' ≠ .adding)
    (hentered : ∀ q r, (q, r) ∈ front.policy.regions → InSlot c r.start →
      (blockOf r = b → pc' ≠ .adding) → (∀ st ∈ sts, st.Spares r.start) ∧ Anchored c.geometry w.root r.start q) :
    Memory { w.enter (.thread t) r front todo with calls := setCall w.calls t b pc' } := by
  have hout := h.none_inside hlock
  have hentered' : ∀ q r, (q, r) ∈ front.policy.regions → InSlot c r.start →
      (∀ x ∈ setCall w.calls t b pc', x.2.1 = blockOf r → x.2.2 ≠ .adding) →
      (∀ st ∈ sts, st.Spares r.start) ∧ Anchored c.geometry w.root r.start q := by
    intro q r hlive hslot hcalls
    exact hentered q r hlive hslot fun hblock => hcalls _ List.mem_cons_self hblock.symm
  refine ⟨?_, ?_, ?_, ?_, ?_, ?_, ?_, ?_, ?_⟩
  · simpa only [World.stores, World.enter, hsts] using hrest
  · simp only [World.stores, World.enter, hsts]
    refine hone.imp_right (And.imp_right ?_)
    intro hne x hx
    rcases List.mem_cons.1 hx with rfl | hx
    · exact hne
    · intro hadding
      have hfalse := hout x (List.mem_of_mem_filter hx)
      rw [hadding] at hfalse
      cases hfalse
  · simp only [World.stores, World.enter, hsts]
    rintro st hst q r ⟨hlive, hslot, hcalls⟩
    exact (hentered' q r hlive hslot hcalls).1 st hst
  · rintro q r ⟨hlive, hslot, hcalls⟩
    exact (hentered' q r hlive hslot hcalls).2
  · intro x hx
    rcases List.mem_cons.1 hx with rfl | hx
    · intro _
      cases pc' with
      | adding => simp [Pc.freeing]
      | deleting => simp [Pc.freeing]
      | _ => cases hpc'
    · exact h.looking x (List.mem_of_mem_filter hx)
  · intro hnone
    cases hnone
  · intro hsampler
    cases hsampler
  · intro x hx
    rcases List.mem_cons.1 hx with rfl | hx
    · simpa [World.enter] using hpc'
    · have hne : x.1 ≠ t := by simpa using (List.mem_filter.1 hx).2
      simp [World.enter, hout x (List.mem_of_mem_filter hx), Ne.symm hne]
  · intro u hu
    obtain rfl : t = u := by simpa [World.enter] using hu
    exact ⟨_, List.mem_cons_self, rfl⟩

/-- The sampler takes the lock; it does not store to the map. -/
theorem enterSample (h : Memory w) (hlock : w.lock = none) {front : Front c State}
    {r : Plugins.Report} {todo : List (Op c.geometry)} (htodo : todo.filterMap Op.store? = [])
    (hroot : front.root = w.front.root) (hregions : front.policy.regions = w.front.policy.regions) :
    Memory (w.enter .sampler r front todo) := by
  have hstores := h.stores_of_idle hlock
  have hout := h.none_inside hlock
  have hentered : ∀ p region, (w.enter .sampler r front todo).Entered p region →
      w.Entered p region := by
    rintro p region ⟨hlive, hslot, hcalls⟩
    exact ⟨hregions ▸ hlive, hslot, hcalls⟩
  have hstores' : (w.enter .sampler r front todo).stores = [] := htodo
  refine ⟨?_, ?_, ?_, ?_, h.looking, ?_, fun _ => hstores', ?_, ?_⟩
  · rw [hstores']
    show some w.root = some front.root
    rw [h.root_eq hstores, hroot]
  · rw [hstores']
    exact Or.inl (by simp)
  · rw [hstores']
    simp
  · intro p region hregion
    exact h.anchored p region (hentered p region hregion)
  · intro hnone
    cases hnone
  · intro x hx
    simp [World.enter, hout x hx]
  · intro t ht
    cases ht

/-- The section makes a call or a log entry. -/
theorem effect (h : Memory w) {e : Plugins.Effect} {todo : List (Op c.geometry)}
    (htodo : w.todo = .effect e :: todo) :
    Memory { w with trace := w.trace ++ [e], todo := todo } := by
  have hstores : w.stores = todo.filterMap Op.store? := by
    rw [World.stores, htodo]
    rfl
  have hidle : w.lock ≠ none := by
    intro hlock
    rw [h.idle hlock] at htodo
    cases htodo
  refine ⟨?_, ?_, ?_, h.anchored, h.looking, fun hlock => absurd hlock hidle, ?_, h.inside, h.holder⟩
  · have hrest := h.rest
    rw [hstores] at hrest
    exact hrest
  · have hone := h.oneWay
    rw [hstores] at hone
    exact hone
  · have hspares := h.spares
    rw [hstores] at hspares
    exact hspares
  · have hsampling := h.sampling
    rw [hstores] at hsampling
    exact hsampling

end Memory

section Mark

variable {c : Setup} (root : Root c.geometry) (x : Call)

/-- A lookup that is lost, or nothing. -/
theorem World.mark_cases : World.mark root x = x ∨
    (∃ l, x.2.2 = .looking l ∧ l.valid c.geometry root x.2.1.start = false) ∧
      World.mark root x = (x.1, x.2.1, .lost) := by
  rcases x with ⟨t, b, pc⟩
  cases pc with
  | looking l =>
      by_cases hvalid : l.valid c.geometry root b.start = true
      · exact Or.inl (by simp [World.mark, hvalid])
      · exact Or.inr ⟨⟨l, rfl, by simpa using hvalid⟩, by simp [World.mark, hvalid]⟩
  | _ => exact Or.inl rfl

theorem World.mark_fst : (World.mark root x).1 = x.1 := by
  rcases World.mark_cases root x with hsame | ⟨-, hlost⟩
  · rw [hsame]
  · rw [hlost]

theorem World.mark_block : (World.mark root x).2.1 = x.2.1 := by
  rcases World.mark_cases root x with hsame | ⟨-, hlost⟩
  · rw [hsame]
  · rw [hlost]

theorem World.mark_tracking : (World.mark root x).2.2.tracking = x.2.2.tracking := by
  rcases World.mark_cases root x with hsame | ⟨⟨l, hl, -⟩, hlost⟩
  · rw [hsame]
  · rw [hlost, hl]
    rfl

theorem World.mark_inside : (World.mark root x).2.2.inside = x.2.2.inside := by
  rcases World.mark_cases root x with hsame | ⟨⟨l, hl, -⟩, hlost⟩
  · rw [hsame]
  · rw [hlost, hl]
    rfl

/-- Only lookups are marked. -/
theorem World.mark_eq {x : Call} (h : (World.mark root x).2.2 ≠ .lost) : World.mark root x = x := by
  rcases World.mark_cases root x with hsame | ⟨-, hlost⟩
  · exact hsame
  · rw [hlost] at h
    exact absurd rfl h

end Mark

namespace Memory

variable {c : Setup} {w : World c} {t : Nat} {b : Allocation} {pc : Pc} {p : RegionPtr}
  {region : ShamblesRegion}

/-- A region that is being released has been entered. -/
theorem entered_of_call (h : Memory w) (hs : Safe w.front w.held w.calls)
    (hcall : w.calls.lookup t = some (b, pc)) (hlarge : c.sizeThresshold ≤ b.size)
    (hpc : pc.freeing = true) : ∃ p region, w.Entered p region ∧ blockOf region = b := by
  have htracking : pc.tracking = true ∧ pc ≠ .adding := by
    cases pc with
    | allocated => cases hpc
    | adding => cases hpc
    | deleting => cases hpc
    | reported => cases hpc
    | _ => exact ⟨rfl, Pc.noConfusion⟩
  rcases hs.region_of_call hcall hlarge htracking.1 with ⟨p, region, hlive, hblock⟩
  have hslot : InSlot c b.start := (h.looking _ (mem_of_lookup hcall) hlarge).2.2 hpc
  have hstart : region.start = b.start := congrArg Allocation.start hblock
  refine ⟨p, region, ⟨hlive, hstart ▸ hslot, ?_⟩, hblock⟩
  intro x hx hxb
  rcases hs.rest hcall with ⟨-, -, hother, hcases⟩
  rcases (hcases x).1 hx with rfl | hx
  · exact htracking.2
  · exact absurd (hxb.trans hblock) (hother x hx)

section Store

variable {st : Store c.geometry} {todo : List (Op c.geometry)} {root : Root c.geometry}

theorem stores_eq (htodo : w.todo = .store st :: todo) :
    w.stores = st :: todo.filterMap Op.store? := by
  rw [World.stores, htodo]
  rfl

/-- What the stores behind it still have to do. -/
theorem rest_store (h : Memory w) (htodo : w.todo = .store st :: todo)
    (hst : st.apply w.root = some root) :
    (todo.filterMap Op.store?).foldlM Store.apply root = some w.front.root := by
  have hrest := h.rest
  rwa [stores_eq htodo, List.foldlM_cons, hst, Option.bind_eq_bind, Option.bind_some] at hrest

/-- Regions that have been entered are still in place behind a store. -/
theorem anchored_store (h : Memory w) (hs : Safe w.front w.held w.calls)
    (htodo : w.todo = .store st :: todo) (hst : st.apply w.root = some root)
    (hregion : w.Entered p region) : Anchored c.geometry root region.start p := by
  have hone := h.oneWay
  have hspares := h.spares
  rw [stores_eq htodo] at hone hspares
  rcases hone with hgrows | ⟨hshrinks, -⟩
  · exact (h.anchored p region hregion).grow hst (hgrows st List.mem_cons_self)
      (hspares st List.mem_cons_self p region hregion)
  · -- nothing is allocated any more, so what the section will leave in place is in place
    refine (hs.anchored hregion.1 hregion.2.1).of_rest (h.rest_store htodo hst) ?_ ?_
    · intro st' hst'
      exact hshrinks st' (List.mem_cons_of_mem _ hst')
    · intro st' hst'
      exact hspares st' (List.mem_cons_of_mem _ hst') p region hregion

/-- So the arrays on the way of a lookup for a large block are still there. -/
theorem mark_large (h : Memory w) (hs : Safe w.front w.held w.calls)
    (htodo : w.todo = .store st :: todo) (hst : st.apply w.root = some root) {x : Call}
    (hx : x ∈ w.calls) (hlarge : c.sizeThresshold ≤ x.2.1.size) : World.mark root x = x := by
  rcases World.mark_cases root x with hsame | ⟨⟨l, hl, hinvalid⟩, -⟩
  · exact hsame
  · have hcall : w.calls.lookup x.1 = some (x.2.1, .looking l) :=
      (lookup_of_mem hs.threads hx).trans (congrArg some (Prod.ext rfl hl))
    rcases h.entered_of_call hs hcall hlarge rfl with ⟨p, region, hregion, hblock⟩
    have hupper := (h.looking x hx hlarge).2.1 l hl
    have hvalid := (h.anchored_store hs htodo hst hregion).valid hupper
    have hstart : region.start = x.2.1.start := congrArg Allocation.start hblock
    rw [hstart, hinvalid] at hvalid
    cases hvalid

/-- The section makes one store to the map. -/
theorem store (h : Memory w) (hs : Safe w.front w.held w.calls)
    (htodo : w.todo = .store st :: todo) (hst : st.apply w.root = some root) :
    Memory { w with root := root, todo := todo, calls := w.calls.map (World.mark root) } := by
  have hone := h.oneWay
  have hspares := h.spares
  rw [stores_eq htodo] at hone hspares
  -- a call that is entering a block is not a lookup
  have hadding : ∀ x ∈ w.calls, x.2.2 = .adding → World.mark root x = x := by
    intro x _ hpc
    rcases World.mark_cases root x with hsame | ⟨⟨l, hl, -⟩, -⟩
    · exact hsame
    · rw [hpc] at hl
      cases hl
  have hold : ∀ p region, World.Entered { w with
      root := root, todo := todo, calls := w.calls.map (World.mark root) } p region →
      w.Entered p region := by
    rintro p region ⟨hlive, hslot, hcalls⟩
    refine ⟨hlive, hslot, ?_⟩
    intro x hx hxb hpc
    exact hcalls x (List.mem_map.2 ⟨x, hx, hadding x hx hpc⟩) hxb hpc
  refine ⟨h.rest_store htodo hst, ?_, ?_, ?_, ?_, ?_, ?_, ?_, ?_⟩
  · refine hone.imp (fun hgrows st' hst' => hgrows st' (List.mem_cons_of_mem _ hst')) ?_
    rintro ⟨hshrinks, hnone⟩
    refine ⟨fun st' hst' => hshrinks st' (List.mem_cons_of_mem _ hst'), ?_⟩
    intro x hx hpc
    rcases List.mem_map.1 hx with ⟨y, hy, rfl⟩
    rw [World.mark_eq root (by rw [hpc]; exact Pc.noConfusion)] at hpc
    exact hnone y hy hpc
  · intro st' hst' p region hregion
    exact hspares st' (List.mem_cons_of_mem _ hst') p region (hold p region hregion)
  · intro p region hregion
    exact h.anchored_store hs htodo hst (hold p region hregion)
  · intro x hx hlarge
    rcases List.mem_map.1 hx with ⟨y, hy, rfl⟩
    rw [World.mark_block] at hlarge
    rw [h.mark_large hs htodo hst hy hlarge]
    exact h.looking y hy hlarge
  · intro hlock
    rw [h.idle hlock] at htodo
    cases htodo
  · intro hlock
    have hnone := h.sampling hlock
    rw [stores_eq htodo] at hnone
    cases hnone
  · intro x hx
    rcases List.mem_map.1 hx with ⟨y, hy, rfl⟩
    rw [World.mark_inside, World.mark_fst]
    exact h.inside y hy
  · intro u hu
    rcases h.holder u hu with ⟨x, hx, rfl⟩
    exact ⟨World.mark root x, List.mem_map_of_mem hx, World.mark_fst root x⟩

end Store

/-- The holder gives the lock back and is not inside any more. -/
theorem unlock (h : Memory w) (hs : Safe w.front w.held w.calls) (htodo : w.todo = [])
    {calls : List Call} (hcalls : ∀ x ∈ calls, x.2.2.inside = false ∧ OnTheWay c x) :
    Memory { w with lock := none, calls := calls } := by
  have hstores : World.stores { w with lock := none, calls := calls } = [] := by
    simp [World.stores, htodo]
  have hroot : w.root = w.front.root := h.root_eq (by simp [World.stores, htodo])
  refine ⟨?_, ?_, ?_, ?_, fun x hx => (hcalls x hx).2, fun _ => htodo, fun _ => hstores, ?_, ?_⟩
  · rw [hstores]
    exact congrArg some hroot
  · rw [hstores]
    exact Or.inl (by simp)
  · rw [hstores]
    simp
  · rintro p region ⟨hlive, hslot, -⟩
    show Anchored c.geometry w.root region.start p
    rw [hroot]
    exact hs.anchored hlive hslot
  · intro x hx
    simp [(hcalls x hx).1]
  · intro u hu
    cases hu

end Memory

end Lru
end Shambles
