import Shambles.Lru.Trace
import Shambles.Structures.Stores

/-!
# Threads — the LRU plugin under concurrent calls of the allocator

Any number of threads call `je_malloc` and `je_free`, and the sampler thread calls `handleSample`.  A
block is reported after `imalloc` has returned it, and reported as freed before it is given back.
`allocCallback` holds `lruLock` around an allocation, but a release begins outside of it: `getRegion`
and `unbind` come before the lock is taken.  The steps of all threads interleave, and a step is small:
one load of `getRegion`, one store to the region map, one `mbind` call or log entry.  The lists and
tags are read and written under the lock only, so they change when a section begins.

The blocks lie in the sampled window, as all mappings of the patched allocator do, and `je_realloc`,
whose reports the plugin ignores, is left out.  Two more things are asked of a run (`Passes`), neither
of which the source sees to.  A large block that starts on a slot boundary is not freed: it would not
be found again, and stay tracked.  And the lookup for a block that is too small to be tracked comes to
nothing: further down in the slot where a region starts, it may find the region while that is being
deleted.

Between any two steps the blocks are told apart by the plugin (`Safe`), and the memory of the map is
on its way to what the section in progress will leave, with every region that has been entered in
place (`Memory`).
-/

namespace Shambles
namespace Lru

open AssocList Structures Plugins
open Jemalloc (AllocEvent Allocation)

/-! ## The threads -/

/-- Where a call of `je_malloc` or `je_free` stands. -/
inductive Pc
  /-- `imalloc` has returned, `logAlloc` has not been called. -/
  | allocated
  /-- In the section that enters the block. -/
  | adding
  /-- In `getRegion`, before this load. -/
  | looking (l : Load)
  /-- In `getRegion`, on the way through an array that has been freed. -/
  | lost
  /-- `getRegion` has answered with a region. -/
  | found (p : RegionPtr)
  /-- `unbind` has returned, `lruLock` has not been taken. -/
  | unbound (p : RegionPtr)
  /-- In the section that deletes the region. -/
  | deleting
  /-- `logAlloc` has returned, the memory has not been given back. -/
  | reported
  deriving DecidableEq, Repr

namespace Pc

/-- The plugin may know the block of the call. -/
def tracking : Pc → Bool
  | .allocated => false
  | .adding => true
  | .looking _ => true
  | .lost => true
  | .found _ => true
  | .unbound _ => true
  | .deleting => false
  | .reported => false

/-- The call is a release that has not come to its section. -/
def freeing : Pc → Bool
  | .looking _ => true
  | .lost => true
  | .found _ => true
  | .unbound _ => true
  | _ => false

/-- The call holds `lruLock`. -/
def inside : Pc → Bool
  | .adding => true
  | .deleting => true
  | _ => false

/-- A thread in `je_free` can take its next step outside of a section. -/
def ready (free : Bool) : Pc → Bool
  | .looking _ => true
  | .lost => true
  | .found _ => true
  | .unbound _ => free
  | .reported => true
  | _ => false

end Pc

/-- The thread, the block and the place. -/
abbrev Call := Nat × Allocation × Pc

def setCall (calls : List Call) (t : Nat) (block : Allocation) (pc : Pc) : List Call :=
  (t, block, pc) :: calls.filter fun x => x.1 ≠ t

def endCall (calls : List Call) (t : Nat) : List Call :=
  calls.filter fun x => x.1 ≠ t

inductive Holder
  | thread (t : Nat)
  | sampler
  deriving DecidableEq, Repr

/-- What others can see of a section: stores to the map, and calls and log entries. -/
inductive Op (g : Geometry)
  | store (st : Store g)
  | effect (e : Effect)

namespace Op

variable {g : Geometry}

def store? : Op g → Option (Store g)
  | .store st => some st
  | .effect _ => none

def effect? : Op g → Option Effect
  | .store _ => none
  | .effect e => some e

theorem filterMap_store? (sts : List (Store g)) :
    (sts.map Op.store).filterMap store? = sts := by
  rw [List.filterMap_map]
  exact List.filterMap_some

theorem filterMap_store?_effects (es : List Effect) :
    (es.map (Op.effect (g := g))).filterMap store? = [] := by
  simp [List.filterMap_map, Function.comp_def, store?]

theorem filterMap_effect? (es : List Effect) :
    (es.map (Op.effect (g := g))).filterMap effect? = es := by
  rw [List.filterMap_map]
  exact List.filterMap_some

theorem filterMap_effect?_stores (sts : List (Store g)) :
    (sts.map Op.store).filterMap effect? = [] := by
  simp [List.filterMap_map, Function.comp_def, effect?]

end Op

structure World (c : Setup) where
  /-- The memory of the region map. -/
  root : Root c.geometry
  /-- The `mbind` calls and log entries so far. -/
  trace : List Effect
  /-- The plugin as the section in progress will leave it; its trace has the effects of the sections
  only. -/
  front : Front c State
  lock : Option Holder
  /-- What is left of the section in progress. -/
  todo : List (Op c.geometry)
  /-- The blocks `imalloc` has handed out and not taken back. -/
  held : List Allocation
  /-- The calls in progress. -/
  calls : List Call
  /-- What the sections under `lruLock` were called with, in their order. -/
  order : List Report

inductive Action
  /-- `imalloc` returns a block to a thread in `je_malloc`. -/
  | malloc (thread : Nat) (block : Allocation)
  /-- The thread reports its block. -/
  | report (thread : Nat) (output chunksPtr : Nat)
  /-- The thread enters `je_free`. -/
  | free (thread : Nat) (block : Allocation)
  /-- The next step of a thread in `je_free` that is not in its section. -/
  | run (thread : Nat)
  /-- The sampler thread begins to handle a sample. -/
  | sample (addr : Nat)
  /-- The next step of the section in progress. -/
  | work
  | unlock
  deriving DecidableEq, Repr

/-- The reports of `je_malloc` and `je_free`. -/
def allocReport (block : Allocation) (output chunksPtr : Nat) : Report :=
  .callback ⟨.alloc, 0, block.start, block.size⟩ output chunksPtr

def freeReport (block : Allocation) : Report :=
  .callback ⟨.free, block.start, 0, 0⟩ 0 0

/-- A block of the window; if it is large, it has no more chunks than an `int` counts. -/
def Suits (c : Setup) (b : Allocation) : Prop :=
  (c.window * 2 ^ 39 ≤ b.start ∧ b.start + b.span ≤ (c.window + 1) * 2 ^ 39) ∧
    (c.sizeThresshold ≤ b.size → (b.size + c.chunkSize - 1) / c.chunkSize ≤ INT_MAX)

instance (c : Setup) (b : Allocation) : Decidable (Suits c b) :=
  inferInstanceAs (Decidable (_ ∧ _))

/-- The address is not on a slot boundary. -/
def InSlot (c : Setup) (addr : Nat) : Prop :=
  addr % 2 ^ c.geometry.regionShift ≠ 0

instance (c : Setup) (addr : Nat) : Decidable (InSlot c addr) :=
  inferInstanceAs (Decidable (_ ≠ _))

namespace World

variable {c : Setup}

def init (c : Setup) (fastChunks : Nat) : World c where
  root := (Front.init c (lruInit fastChunks)).root
  trace := []
  front := Front.init c (lruInit fastChunks)
  lock := none
  todo := []
  held := []
  calls := []
  order := []

/-- A section begins that will leave `front`. -/
def enter (w : World c) (holder : Holder) (r : Report) (front : Front c State)
    (todo : List (Op c.geometry)) : World c :=
  { w with
    lock := some holder
    front := front
    todo := todo
    order := w.order ++ [r] }

/-- The effects of a section, by the trace it leaves. -/
def effects (w : World c) (front : Front c State) : List (Op c.geometry) :=
  (front.policy.trace.drop w.front.policy.trace.length).map .effect

/-- `allocCallback` for an allocation; it takes the lock for large blocks only. -/
def report (w : World c) (t : Nat) (block : Allocation) (output chunksPtr : Nat) :
    Option (World c) :=
  if c.sizeThresshold ≤ block.size then
    let r := allocReport block output chunksPtr
    (w.front.step policy r).map fun front =>
      -- `addRegion` comes before the loops that bind the chunks
      { w.enter (.thread t) r front
          ((addStores c.geometry output block.start (wrap64 (block.start + block.size))).map .store ++
            w.effects front) with
        calls := setCall w.calls t block .adding }
  else
    some { w with calls := endCall w.calls t }

/-- One step of a thread that is in `je_free` and not in its section. -/
def runFree (w : World c) (t : Nat) (block : Allocation) : Pc → Option (World c)
  | .looking l =>
      match load c.geometry w.root block.start l with
      | some (.inl l') => some { w with calls := setCall w.calls t block (.looking l') }
      | some (.inr (some p)) => some { w with calls := setCall w.calls t block (.found p) }
      | some (.inr none) => some { w with calls := setCall w.calls t block .reported }
      | none => none
  | .found p =>
      -- a region that the section in progress deletes counts as gone
      (w.front.policy.regions.lookup p).map fun region =>
        { w with
          trace := w.trace ++ unbind region
          calls := setCall w.calls t block (.unbound p) }
  | .unbound p => do
      let region ← w.front.policy.regions.lookup p
      let root ← deleteRegion c.geometry w.front.root region
      let front : Front c State := ⟨root, freeNodes w.front.policy p region⟩
      -- `deleteRegion` comes behind the loop over the nodes
      some { w.enter (.thread t) (freeReport block) front
          (w.effects front ++ (deleteStores c.geometry region).map .store) with
        calls := setCall w.calls t block .deleting }
  | .reported =>
      some { w with
        calls := endCall w.calls t
        held := w.held.filter fun b => b ≠ block }
  | _ => none

/-- A lookup is lost if the array its next load is made from has been freed. -/
def mark (root : Root c.geometry) (x : Call) : Call :=
  match x.2.2 with
  | .looking l => if l.valid c.geometry root x.2.1.start then x else (x.1, x.2.1, .lost)
  | _ => x

def work (w : World c) : Option (World c) :=
  match w.todo with
  | [] => none
  | .effect e :: rest => some { w with trace := w.trace ++ [e], todo := rest }
  | .store st :: rest => (st.apply w.root).map fun root =>
      { w with root := root, todo := rest, calls := w.calls.map (mark root) }

def unlock (w : World c) : Option (World c) :=
  match w.lock with
  | none => none
  | some .sampler => some { w with lock := none }
  | some (.thread t) =>
      match w.calls.lookup t with
      | some (_, .adding) => some { w with lock := none, calls := endCall w.calls t }
      | some (block, .deleting) =>
          some { w with lock := none, calls := setCall w.calls t block .reported }
      | _ => none

def step (w : World c) : Action → Option (World c)
  | .malloc t block => some { w with
      held := block :: w.held
      calls := setCall w.calls t block .allocated }
  | .report t output chunksPtr =>
      match w.calls.lookup t with
      | some (block, _) => w.report t block output chunksPtr
      | none => none
  | .free t block => some { w with calls := setCall w.calls t block (.looking (.pointer 0)) }
  | .run t =>
      match w.calls.lookup t with
      | some (block, pc) => w.runFree t block pc
      | none => none
  | .sample addr => (w.front.step policy (.sample addr)).map fun front =>
      w.enter .sampler (.sample addr) front (w.effects front)
  | .work => w.work
  | .unlock => w.unlock

/-- `imalloc` hands out what is free; `plugin_malloc` returns a new address; a block is freed by one
thread, once its `je_malloc` has returned; a section begins when the lock is free. -/
def Enabled (w : World c) : Action → Prop
  | .malloc t block => w.calls.lookup t = none ∧ Suits c block ∧ ∀ b ∈ w.held, block.Apart b
  | .report t output _ =>
      (w.calls.lookup t).any (fun call => call.2 = .allocated ∧
        (c.sizeThresshold ≤ call.1.size → w.lock = none)) = true ∧
        w.front.policy.regions.lookup output = none
  | .free t block => w.calls.lookup t = none ∧ block ∈ w.held ∧ ∀ x ∈ w.calls, x.2.1 ≠ block
  | .run t => (w.calls.lookup t).any (fun call => call.2.ready w.lock.isNone) = true
  | .sample addr => c.InWindow addr ∧ w.lock = none
  | .work => w.todo.isEmpty = false
  | .unlock => w.lock.isSome = true ∧ w.todo.isEmpty = true

instance (w : World c) : (a : Action) → Decidable (w.Enabled a)
  | .malloc _ _ => inferInstanceAs (Decidable (_ ∧ _))
  | .report _ _ _ => inferInstanceAs (Decidable (_ ∧ _))
  | .free _ _ => inferInstanceAs (Decidable (_ ∧ _))
  | .run _ => inferInstanceAs (Decidable (_ = _))
  | .sample _ => inferInstanceAs (Decidable (_ ∧ _))
  | .work => inferInstanceAs (Decidable (_ = _))
  | .unlock => inferInstanceAs (Decidable (_ ∧ _))

def system (c : Setup) : System (World c) Action :=
  { enabled := Enabled
    step := step }

instance (w : World c) (a : Action) : Decidable ((system c).enabled w a) :=
  inferInstanceAs (Decidable (w.Enabled a))

/-- The next load for a block follows no array that has been freed and answers with no region. -/
def misses (w : World c) (block : Allocation) : Pc → Bool
  | .looking l =>
      match load c.geometry w.root block.start l with
      | some (.inl _) => true
      | some (.inr none) => true
      | _ => false
  | .lost => false
  | _ => true

/-- A large block that is freed starts inside a slot, and the lookup for a small one comes to
nothing. -/
def Passes (w : World c) : Action → Prop
  | .free _ block => c.sizeThresshold ≤ block.size → InSlot c block.start
  | .run t => (w.calls.lookup t).all (fun call =>
      decide (c.sizeThresshold ≤ call.1.size) || w.misses call.1 call.2) = true
  | _ => True

instance (w : World c) : (a : Action) → Decidable (w.Passes a)
  | .free _ _ => inferInstanceAs (Decidable (_ → _))
  | .run _ => inferInstanceAs (Decidable (_ = _))
  | .malloc _ _ => isTrue trivial
  | .report _ _ _ => isTrue trivial
  | .sample _ => isTrue trivial
  | .work => isTrue trivial
  | .unlock => isTrue trivial

instance (w : World c) (a : Action) : Decidable (((system c).restrict Passes).enabled w a) :=
  inferInstanceAs (Decidable (w.Enabled a ∧ w.Passes a))

/-- The stores to the map that are left of the section in progress. -/
def stores (w : World c) : List (Store c.geometry) :=
  w.todo.filterMap Op.store?

/-- Its effects that are left. -/
def left (w : World c) : List Effect :=
  w.todo.filterMap Op.effect?

end World

/-! ## What the plugin knows of the blocks -/

theorem Suits.inWindow {c : Setup} {b : Allocation} (h : Suits c b) : c.InWindow b.start := by
  have hspan : 0 < b.span := lt_of_lt_of_le Nat.one_pos (le_max_right _ _)
  rcases h.1 with ⟨hlo, hhi⟩
  exact div_window hlo (by omega)

/-- The blocks are apart, the plugin tracks the large ones that are neither yet to be entered nor
deleted, and a thread in the middle of a release has found the region of its block. -/
structure Safe {c : Setup} (front : Front c State) (held : List Allocation) (calls : List Call) :
    Prop where
  exact : Front.Exact policy front
  apart : held.Pairwise Allocation.Apart
  suits : ∀ b ∈ held, Suits c b
  threads : (calls.map Prod.fst).Nodup
  blocks : (calls.map fun x => x.2.1).Nodup
  busy : ∀ x ∈ calls, x.2.1 ∈ held
  tracked : ∀ b, b ∈ front.blocks policy ↔ b ∈ held ∧ c.sizeThresshold ≤ b.size ∧
    ∀ x ∈ calls, x.2.1 = b → x.2.2.tracking = true
  found : ∀ x ∈ calls, ∀ p, x.2.2 = .found p ∨ x.2.2 = .unbound p →
    ∃ region, front.policy.regions.lookup p = some region ∧ blockOf region = x.2.1

namespace Safe

variable {c : Setup} {front front' : Front c State} {held held' : List Allocation}
  {calls : List Call} {t : Nat} {b b' : Allocation} {pc pc' : Pc} {p : RegionPtr}
  {region : ShamblesRegion}

theorem init (c : Setup) (C : Nat) : Safe (Front.init c (lruInit C)) [] [] where
  exact := Front.Exact.init rfl
  apart := List.Pairwise.nil
  suits := by simp
  threads := List.nodup_nil
  blocks := List.nodup_nil
  busy := by simp
  tracked := by simp [Front.blocks, Front.init, policy, lruInit]
  found := by simp

/-- Blocks that share an address are the same. -/
theorem eq_of_held (h : Safe front held calls) (hb : b ∈ held) (hb' : b' ∈ held) {a : Nat}
    (hin : b.start ≤ a ∧ a < b.start + b.span) (hin' : b'.start ≤ a ∧ a < b'.start + b'.span) :
    b = b' := by
  by_contra hne
  rcases h.apart.forall hb hb' hne with hle | hle
  · omega
  · omega

/-- The block of a live region. -/
theorem of_live (h : Safe front held calls) (hlive : (p, region) ∈ front.policy.regions) :
    blockOf region ∈ held ∧ c.sizeThresshold ≤ region.size := by
  rcases (h.tracked _).1 (List.mem_map.2 ⟨(p, region), hlive, rfl⟩) with ⟨hheld, hlarge, _⟩
  exact ⟨hheld, hlarge⟩

/-- The other calls are on other blocks. -/
theorem rest (h : Safe front held calls) (hcall : calls.lookup t = some (b, pc)) :
    b ∈ held ∧ ((endCall calls t).map fun x => x.2.1).Nodup ∧
      (∀ x ∈ endCall calls t, x.2.1 ≠ b) ∧
      ∀ x, x ∈ calls ↔ x = (t, b, pc) ∨ x ∈ endCall calls t := by
  have hperm := perm_cons_filter h.threads hcall
  have hblocks := (hperm.map fun x => x.2.1).nodup_iff.1 h.blocks
  rw [List.map_cons, List.nodup_cons] at hblocks
  refine ⟨h.busy _ (mem_of_lookup hcall), hblocks.2, ?_, ?_⟩
  · intro x hx hxb
    exact hblocks.1 (List.mem_map.2 ⟨x, hx, hxb⟩)
  · intro x
    rw [hperm.mem_iff, List.mem_cons]
    rfl

/-- What `getRegion` would find at the start of a block is the region of that block. -/
theorem block_of_getRegion (h : Safe front held calls) (hb : b ∈ held)
    (hget : Structures.getRegion c.geometry front.root b.start = some p) :
    ∃ region, front.policy.regions.lookup p = some region ∧ blockOf region = b := by
  rcases h.exact.getRegion_sound (h.suits b hb).inWindow hget with ⟨region, hregion, hle, hlt⟩
  have hregion' : front.policy.regions.lookup p = some region := hregion
  have hspan : (blockOf region).size ≤ (blockOf region).span := le_max_left _ _
  have hspan' : 0 < b.span := lt_of_lt_of_le Nat.one_pos (le_max_right _ _)
  refine ⟨region, hregion', h.eq_of_held (a := b.start) (h.of_live (mem_of_lookup hregion')).1 hb
    ⟨hle, ?_⟩ ⟨le_refl _, by omega⟩⟩
  exact lt_of_lt_of_le hlt (Nat.add_le_add_left hspan _)

/-- A large block that a thread is releasing is that of a live region. -/
theorem region_of_call (h : Safe front held calls) (hcall : calls.lookup t = some (b, pc))
    (hlarge : c.sizeThresshold ≤ b.size) (hpc : pc.tracking = true) :
    ∃ p region, (p, region) ∈ front.policy.regions ∧ blockOf region = b := by
  rcases h.rest hcall with ⟨hb, -, hother, hcases⟩
  have hmem : b ∈ front.blocks policy := by
    refine (h.tracked b).2 ⟨hb, hlarge, ?_⟩
    intro x hx hxb
    rcases (hcases x).1 hx with rfl | hx
    · exact hpc
    · exact absurd hxb (hother x hx)
  rcases List.mem_map.1 hmem with ⟨⟨p, region⟩, hlive, hblock⟩
  exact ⟨p, region, hlive, hblock⟩

/-! ### One lemma for each kind of step -/

/-- A thread outside of the allocator has no call to replace. -/
theorem calls_of_idle (hidle : calls.lookup t = none) : endCall calls t = calls := by
  refine List.filter_eq_self.2 ?_
  intro x hx
  exact decide_eq_true fun hxt => notMem_keys_of_lookup hidle (List.mem_map.2 ⟨x, hx, hxt⟩)

theorem mem_setCall_of_idle (hidle : calls.lookup t = none) (x : Call) :
    x ∈ setCall calls t b pc ↔ x = (t, b, pc) ∨ x ∈ calls := by
  have hcalls := calls_of_idle hidle
  unfold endCall at hcalls
  simp only [setCall, hcalls, List.mem_cons]

theorem malloc (h : Safe front held calls) (hidle : calls.lookup t = none) (hsuits : Suits c b)
    (hapart : ∀ b' ∈ held, b.Apart b') : Safe front (b :: held) (setCall calls t b .allocated) := by
  have hkeys := notMem_keys_of_lookup hidle
  have hcalls : setCall calls t b .allocated = (t, b, .allocated) :: calls :=
    congrArg _ (calls_of_idle hidle)
  have hnew : b ∉ held := by
    intro hb
    have hspan : 0 < b.span := lt_of_lt_of_le Nat.one_pos (le_max_right _ _)
    rcases hapart b hb with hle | hle <;> omega
  rw [hcalls]
  refine ⟨h.exact, List.pairwise_cons.2 ⟨hapart, h.apart⟩, ?_, List.nodup_cons.2 ⟨hkeys, h.threads⟩,
    List.nodup_cons.2 ⟨?_, h.blocks⟩, ?_, ?_, ?_⟩
  · intro x hx
    rcases List.mem_cons.1 hx with rfl | hx
    · exact hsuits
    · exact h.suits x hx
  · intro hb
    rcases List.mem_map.1 hb with ⟨x, hx, rfl⟩
    exact hnew (h.busy x hx)
  · intro x hx
    rcases List.mem_cons.1 hx with rfl | hx
    · exact List.mem_cons_self
    · exact List.mem_cons_of_mem _ (h.busy x hx)
  · intro b'
    rw [h.tracked b']
    constructor
    · rintro ⟨hheld, hlarge, hcall⟩
      refine ⟨List.mem_cons_of_mem _ hheld, hlarge, ?_⟩
      intro x hx hxb
      rcases List.mem_cons.1 hx with rfl | hx
      · obtain rfl : b = b' := hxb
        exact absurd hheld hnew
      · exact hcall x hx hxb
    · rintro ⟨hheld, hlarge, hcall⟩
      have hne : b' ≠ b := by
        rintro rfl
        exact absurd (hcall _ List.mem_cons_self rfl) (by simp [Pc.tracking])
      refine ⟨(List.mem_cons.1 hheld).resolve_left hne, hlarge, ?_⟩
      intro x hx
      exact hcall x (List.mem_cons_of_mem _ hx)
  · intro x hx p hp
    rcases List.mem_cons.1 hx with rfl | hx
    · simp at hp
    · exact h.found x hx p hp

theorem free (h : Safe front held calls) (hidle : calls.lookup t = none) (hb : b ∈ held)
    (hquiet : ∀ x ∈ calls, x.2.1 ≠ b) (l : Load) :
    Safe front held (setCall calls t b (.looking l)) := by
  have hkeys := notMem_keys_of_lookup hidle
  have hcalls : setCall calls t b (.looking l) = (t, b, .looking l) :: calls :=
    congrArg _ (calls_of_idle hidle)
  rw [hcalls]
  refine ⟨h.exact, h.apart, h.suits, List.nodup_cons.2 ⟨hkeys, h.threads⟩,
    List.nodup_cons.2 ⟨?_, h.blocks⟩, ?_, ?_, ?_⟩
  · intro hmem
    rcases List.mem_map.1 hmem with ⟨x, hx, hxb⟩
    exact hquiet x hx hxb
  · intro x hx
    rcases List.mem_cons.1 hx with rfl | hx
    · exact hb
    · exact h.busy x hx
  · intro b'
    rw [h.tracked b']
    refine and_congr_right fun _ => and_congr_right fun _ => ?_
    constructor
    · intro hcall x hx hxb
      rcases List.mem_cons.1 hx with rfl | hx
      · rfl
      · exact hcall x hx hxb
    · intro hcall x hx
      exact hcall x (List.mem_cons_of_mem _ hx)
  · intro x hx p hp
    rcases List.mem_cons.1 hx with rfl | hx
    · simp at hp
    · exact h.found x hx p hp

/-- A call goes on: its block is tracked exactly if it is large and the new place says so, and the
other blocks are as before. -/
theorem move (h : Safe front held calls) (hcall : calls.lookup t = some (b, pc))
    (hexact : Front.Exact policy front')
    (hblock : b ∈ front'.blocks policy ↔ c.sizeThresshold ≤ b.size ∧ pc'.tracking = true)
    (hothers : ∀ b', b' ≠ b → (b' ∈ front'.blocks policy ↔ b' ∈ front.blocks policy))
    (hregions : ∀ p region, front.policy.regions.lookup p = some region → blockOf region ≠ b →
      front'.policy.regions.lookup p = some region)
    (hfound : ∀ p, pc' = .found p ∨ pc' = .unbound p →
      ∃ region, front'.policy.regions.lookup p = some region ∧ blockOf region = b) :
    Safe front' held (setCall calls t b pc') := by
  rcases h.rest hcall with ⟨hb, hnodup, hother, hcases⟩
  have hold : ∀ x ∈ endCall calls t, x ∈ calls := fun x hx => (hcases x).2 (Or.inr hx)
  refine ⟨hexact, h.apart, h.suits, ?_, ?_, ?_, ?_, ?_⟩
  · refine List.nodup_cons.2 ⟨?_, (List.filter_sublist.map _).nodup h.threads⟩
    intro hmem
    rcases List.mem_map.1 hmem with ⟨x, hx, hxt⟩
    exact absurd hxt (by simpa using (List.mem_filter.1 hx).2)
  · refine List.nodup_cons.2 ⟨?_, hnodup⟩
    intro hmem
    rcases List.mem_map.1 hmem with ⟨x, hx, hxb⟩
    exact hother x hx hxb
  · intro x hx
    rcases List.mem_cons.1 hx with rfl | hx
    · exact hb
    · exact h.busy x (hold x hx)
  · intro b'
    by_cases hbb : b' = b
    · subst hbb
      rw [hblock]
      constructor
      · rintro ⟨hlarge, hpc'⟩
        refine ⟨hb, hlarge, ?_⟩
        intro x hx hxb
        rcases List.mem_cons.1 hx with rfl | hx
        · exact hpc'
        · exact absurd hxb (hother x hx)
      · rintro ⟨_, hlarge, hall⟩
        exact ⟨hlarge, hall _ List.mem_cons_self rfl⟩
    · rw [hothers b' hbb, h.tracked b']
      refine and_congr_right fun _ => and_congr_right fun _ => ?_
      constructor
      · intro hall x hx hxb
        rcases List.mem_cons.1 hx with rfl | hx
        · exact absurd hxb.symm hbb
        · exact hall x (hold x hx) hxb
      · intro hall x hx hxb
        rcases (hcases x).1 hx with rfl | hx
        · exact absurd hxb.symm hbb
        · exact hall x (List.mem_cons_of_mem _ hx) hxb
  · intro x hx p hp
    rcases List.mem_cons.1 hx with rfl | hx
    · exact hfound p hp
    · rcases h.found x (hold x hx) p hp with ⟨region, hregion, hxblock⟩
      exact ⟨region, hregions p region hregion (hxblock ▸ hother x hx), hxblock⟩

/-- A call is over: its block is tracked exactly if it is large and still handed out. -/
theorem finish (h : Safe front held calls) (hcall : calls.lookup t = some (b, pc))
    (hheld : held'.Sublist held) (hkept : ∀ b', b' ≠ b → (b' ∈ held' ↔ b' ∈ held))
    (hblock : b ∈ front.blocks policy ↔ b ∈ held' ∧ c.sizeThresshold ≤ b.size) :
    Safe front held' (endCall calls t) := by
  rcases h.rest hcall with ⟨-, hnodup, hother, hcases⟩
  have hold : ∀ x ∈ endCall calls t, x ∈ calls := fun x hx => (hcases x).2 (Or.inr hx)
  refine ⟨h.exact, h.apart.sublist hheld, fun x hx => h.suits x (hheld.subset hx),
    (List.filter_sublist.map _).nodup h.threads, hnodup, ?_, ?_, fun x hx => h.found x (hold x hx)⟩
  · intro x hx
    exact (hkept _ (hother x hx)).2 (h.busy x (hold x hx))
  · intro b'
    by_cases hbb : b' = b
    · subst hbb
      rw [hblock, and_congr_right_iff]
      intro _
      exact (and_iff_left fun x hx hxb => absurd hxb (hother x hx)).symm
    · rw [h.tracked b', ← hkept b' hbb]
      refine and_congr_right fun _ => and_congr_right fun _ => ?_
      constructor
      · intro hall x hx
        exact hall x (hold x hx)
      · intro hall x hx hxb
        rcases (hcases x).1 hx with rfl | hx
        · exact absurd hxb.symm hbb
        · exact hall x hx hxb

/-- Only the places of calls change, between places of the same kind. -/
theorem relabel (h : Safe front held calls) {f : Call → Call} (hthread : ∀ x, (f x).1 = x.1)
    (hblock : ∀ x, (f x).2.1 = x.2.1) (htracking : ∀ x, (f x).2.2.tracking = x.2.2.tracking)
    (hfound : ∀ x p, (f x).2.2 = .found p ∨ (f x).2.2 = .unbound p → f x = x) :
    Safe front held (calls.map f) := by
  have hthreads : (calls.map f).map Prod.fst = calls.map Prod.fst := by
    rw [List.map_map]
    exact List.map_congr_left fun x _ => hthread x
  have hblocks : ((calls.map f).map fun x => x.2.1) = calls.map fun x => x.2.1 := by
    rw [List.map_map]
    exact List.map_congr_left fun x _ => hblock x
  refine ⟨h.exact, h.apart, h.suits, hthreads ▸ h.threads, hblocks ▸ h.blocks, ?_, ?_, ?_⟩
  · intro x hx
    rcases List.mem_map.1 hx with ⟨y, hy, rfl⟩
    rw [hblock]
    exact h.busy y hy
  · intro b
    simp only [h.tracked b, List.forall_mem_map, hblock, htracking]
  · intro x hx p hp
    rcases List.mem_map.1 hx with ⟨y, hy, rfl⟩
    have hsame := hfound y p hp
    rw [hsame] at hp ⊢
    exact h.found y hy p hp

/-- A report of a block may be made: no tracked region overlaps it. -/
theorem enabled_report (h : Safe front held calls) (hcall : calls.lookup t = some (b, .allocated))
    {output : Nat} (chunksPtr : Nat) (hfresh : front.policy.regions.lookup output = none) :
    front.Enabled policy (allocReport b output chunksPtr) := by
  rcases h.rest hcall with ⟨hb, _, _, hcases⟩
  intro hlarge
  have hsuits := h.suits b hb
  have hspan : b.size ≤ b.span := le_max_left _ _
  refine ⟨hfresh, ⟨hsuits.1.1, ?_⟩, hsuits.2 hlarge, ?_⟩
  · have hend := hsuits.1.2
    simp only
    omega
  · rintro ⟨p, region⟩ hlive
    have hblock := (h.tracked (blockOf region)).1 (List.mem_map.2 ⟨(p, region), hlive, rfl⟩)
    have hne : blockOf region ≠ b := by
      intro heq
      exact Bool.false_ne_true (hblock.2.2 (t, b, .allocated) ((hcases _).2 (Or.inl rfl)) heq.symm)
    have hspan' : (blockOf region).size ≤ (blockOf region).span := le_max_left _ _
    rcases h.apart.forall hblock.1 hb hne with hle | hle
    · exact Or.inl (le_trans (Nat.add_le_add_left hspan' _) hle)
    · exact Or.inr (le_trans (Nat.add_le_add_left hspan _) hle)

end Safe

end Lru
end Shambles
