import Shambles.Jemalloc.EntryPoints
import Shambles.Lib.Relabel
import Shambles.Plugins.Nodes
import Shambles.Structures.ChunkInfo
import Shambles.Structures.Completeness

/-!
# Front — from reports to the events of a policy

A migration plugin is called with bare addresses: `allocCallback` by the allocator, `handleSample` by
its sampler thread.  It asks the region map (`structures.c`) which region or chunk an address belongs
to, and only then does its policy act on nodes.  Here the real region map stands in front of an
arbitrary policy.

* `MigrationPolicy`: the part of a plugin behind the region map, with the region list it maintains.
* `Front.system`: the callbacks on addresses, for regions that stay apart inside one window.
* `Front.follows`: what the policy goes through is a run on nodes, and the map stays exact.
* `Seen`: which block an address is attributed to, said without the tree.
-/

namespace Shambles
namespace Plugins

open AssocList Structures
open Jemalloc (AllocEvent AllocEventType Allocation)

/-! ## Policies -/

/-- What a plugin does with a region or a chunk it has been told.  All policies keep the list of
live regions in the same way. -/
structure MigrationPolicy (σ : Type) where
  step : σ → Event → Option σ
  regions : σ → RegionMap
  regions_alloc : ∀ s s' p region, step s (.alloc p region) = some s' →
    regions s' = (p, region) :: regions s
  regions_free : ∀ s s' p, step s (.free p) = some s' →
    regions s' = (regions s).filter fun r => r.1 ≠ p
  regions_sample : ∀ s s' addr chunk, step s (.sample addr chunk) = some s' →
    regions s' = regions s

def MigrationPolicy.system {σ : Type} (P : MigrationPolicy σ) : System σ Event :=
  { enabled := fun s e => Enabled (P.regions s) e
    step := P.step }

/-! ## Setups -/

/-- The parameters of the region map, the window that is sampled, and what makes them usable. -/
structure Setup where
  sizeThresshold : Nat
  /-- The undefined `int` in the size of `root`. -/
  w : Int
  chunkSize : Nat
  /-- The number of the `2^39`-aligned window all reported addresses lie in. -/
  window : Nat
  sizeThresshold_pos : 1 ≤ sizeThresshold
  sizeThresshold_lt : sizeThresshold < 2 ^ 48
  /-- All addresses of a window share their entry of `root`. -/
  root_single : 39 ≤ (shamblesStructsInit sizeThresshold w).nonLeafShift0
  chunkSize_pos : 0 < chunkSize
  window_lt : (window + 1) * 2 ^ 39 < 2 ^ 64

namespace Setup

def geometry (c : Setup) : Geometry :=
  shamblesStructsInit c.sizeThresshold c.w

theorem regular (c : Setup) : c.geometry.Regular :=
  Geometry.regular_init c.w c.sizeThresshold_pos c.sizeThresshold_lt

theorem slot_le (c : Setup) : 2 ^ c.geometry.regionShift ≤ c.sizeThresshold := by
  have hlt := c.sizeThresshold_lt
  exact Geometry.slot_le_threshold c.w c.sizeThresshold_pos (by omega)

def InWindow (c : Setup) (addr : Nat) : Prop :=
  addr / 2 ^ 39 = c.window

instance (c : Setup) (addr : Nat) : Decidable (c.InWindow addr) :=
  inferInstanceAs (Decidable (_ = _))

theorem InWindow.lt {c : Setup} {addr : Nat} (h : c.InWindow addr) : addr < 2 ^ 64 := by
  have hlt := c.window_lt
  unfold InWindow at h
  omega

theorem sizeThresshold_lt_default : 0x10000 < 2 ^ 48 := by
  decide

theorem root_single_default : 39 ≤ (shamblesStructsInit 0x10000 (-1)).nonLeafShift0 := by
  decide

theorem first_window_lt : (0 + 1) * 2 ^ 39 < 2 ^ 64 := by
  decide

/-- The default threshold, with chunks of half a slot. -/
def halfSlots : Setup where
  sizeThresshold := 0x10000
  w := -1
  chunkSize := 0x8000
  window := 0
  sizeThresshold_pos := Nat.succ_pos _
  sizeThresshold_lt := sizeThresshold_lt_default
  root_single := root_single_default
  chunkSize_pos := Nat.succ_pos _
  window_lt := first_window_lt

end Setup

/-! ## The callbacks -/

/-- A call from outside.  An allocation comes with the addresses `plugin_malloc` is going to return
for the region and its chunk table. -/
inductive Report
  | callback (event : AllocEvent) (output chunksPtr : Nat)
  | sample (addr : Nat)
  deriving DecidableEq, Repr

structure Front (c : Setup) (σ : Type) where
  root : Root c.geometry
  policy : σ

namespace Front

variable {σ : Type} (P : MigrationPolicy σ) {c : Setup}

/-- The region map: its tree, and the regions the pointers in it lead to. -/
def tree (s : Front c σ) : TreeState c.geometry :=
  ⟨s.root, P.regions s.policy⟩

/-- The state `shamblesStructsInit` and the initialisation of the policy leave. -/
def init (c : Setup) (policy : σ) : Front c σ :=
  ⟨(TreeState.init c.geometry).root, policy⟩

def allocCallback (s : Front c σ) (event : AllocEvent) (output chunksPtr : Nat) :
    Option (Front c σ) :=
  match event.type with
  | .alloc =>
      if c.sizeThresshold ≤ event.size then
        let r := addRegion c.geometry c.chunkSize s.root output chunksPtr event.outPtr event.size
        (P.step s.policy (.alloc output r.1)).map fun policy => ⟨r.2, policy⟩
      else
        some s
  | .realloc => some s -- todo
  | .free =>
      match getRegion c.geometry s.root event.inPtr with
      | some p => do
          let region ← (P.regions s.policy).lookup p
          -- `deleteRegion` comes behind the loop over the nodes, which does not touch the tree
          let policy ← P.step s.policy (.free p)
          let root ← deleteRegion c.geometry s.root region
          some ⟨root, policy⟩
      | none => some s

/-- The node of the chunk `getChunkInfo` answers with. -/
def chunkAt (s : Front c σ) (addr : Nat) : Option NodePtr :=
  (getChunkInfo c.chunkSize (s.tree P) addr).map fun r => ⟨r.1, r.2⟩

def handleSample (s : Front c σ) (addr : Nat) : Option (Front c σ) :=
  (P.step s.policy (.sample addr (s.chunkAt P addr))).map fun policy => { s with policy := policy }

def step (s : Front c σ) : Report → Option (Front c σ)
  | .callback event output chunksPtr => s.allocCallback P event output chunksPtr
  | .sample addr => s.handleSample P addr

/-- A large block lies in the window and is cut into a number of chunks that fits an `int`; it
overlaps no region that is tracked, be it live or one whose release was missed; `plugin_malloc`
returns a new address; addresses that are released or sampled lie in the window. -/
def Enabled (s : Front c σ) : Report → Prop
  | .callback event output _ =>
      match event.type with
      | .alloc => c.sizeThresshold ≤ event.size →
          (P.regions s.policy).lookup output = none ∧
          (c.window * 2 ^ 39 ≤ event.outPtr ∧
            event.outPtr + event.size ≤ (c.window + 1) * 2 ^ 39) ∧
          (event.size + c.chunkSize - 1) / c.chunkSize ≤ INT_MAX ∧
          ∀ r ∈ P.regions s.policy, r.2.start + r.2.size ≤ event.outPtr ∨
            event.outPtr + event.size ≤ r.2.start
      | .realloc => True
      | .free => c.InWindow event.inPtr
  | .sample addr => c.InWindow addr

instance (s : Front c σ) : (r : Report) → Decidable (s.Enabled P r)
  | .callback ⟨.alloc, _, _, _⟩ _ _ => inferInstanceAs (Decidable (_ → _))
  | .callback ⟨.realloc, _, _, _⟩ _ _ => isTrue trivial
  | .callback ⟨.free, inPtr, _, _⟩ _ _ => inferInstanceAs (Decidable (c.InWindow inPtr))
  | .sample addr => inferInstanceAs (Decidable (c.InWindow addr))

def system (c : Setup) : System (Front c σ) Report :=
  { enabled := Enabled P
    step := step P }

instance (s : Front c σ) (r : Report) : Decidable ((system P c).enabled s r) :=
  inferInstanceAs (Decidable (s.Enabled P r))

/-- The events of the policy a report turns into: one or none. -/
def resolve (s : Front c σ) : Report → List Event
  | .callback event output chunksPtr =>
      match event.type with
      | .alloc =>
          if c.sizeThresshold ≤ event.size then
            [.alloc output
              (addRegion c.geometry c.chunkSize s.root output chunksPtr event.outPtr event.size).1]
          else
            []
      | .realloc => []
      | .free => (getRegion c.geometry s.root event.inPtr).toList.map Event.free
  | .sample addr => [.sample addr (s.chunkAt P addr)]

/-! ## What a report does -/

section Steps

variable {P} {s s' : Front c σ}

/-- The three kinds of reports that reach the policy; the others change nothing. -/
theorem step_cases {r : Report} (h : s.step P r = some s') :
    (s.resolve P r = [] ∧ s' = s) ∨
    (∃ event output chunksPtr added, r = .callback event output chunksPtr ∧ event.type = .alloc ∧
        c.sizeThresshold ≤ event.size ∧
        added = addRegion c.geometry c.chunkSize s.root output chunksPtr event.outPtr event.size ∧
        s.resolve P r = [.alloc output added.1] ∧
        P.step s.policy (.alloc output added.1) = some s'.policy ∧ s'.root = added.2) ∨
    (∃ event output chunksPtr p region, r = .callback event output chunksPtr ∧ event.type = .free ∧
        getRegion c.geometry s.root event.inPtr = some p ∧
        (P.regions s.policy).lookup p = some region ∧ s.resolve P r = [.free p] ∧
        P.step s.policy (.free p) = some s'.policy ∧
        deleteRegion c.geometry s.root region = some s'.root) ∨
    ∃ addr, r = .sample addr ∧ s.resolve P r = [.sample addr (s.chunkAt P addr)] ∧
      P.step s.policy (.sample addr (s.chunkAt P addr)) = some s'.policy ∧ s'.root = s.root := by
  cases r with
  | callback event output chunksPtr =>
      simp only [step, allocCallback] at h
      simp only [resolve]
      cases htype : event.type with
      | alloc =>
          by_cases hsize : c.sizeThresshold ≤ event.size
          · rw [htype] at h
            simp only [hsize, if_true, Option.map_eq_some_iff] at h
            rcases h with ⟨policy, hpolicy, rfl⟩
            exact Or.inr (Or.inl ⟨event, output, chunksPtr, _, rfl, htype, hsize, rfl,
              by simp [hsize], hpolicy, rfl⟩)
          · have hsame : s = s' := by simpa [htype, hsize] using h
            exact Or.inl ⟨by simp [hsize], hsame.symm⟩
      | realloc =>
          have hsame : s = s' := by simpa [htype] using h
          exact Or.inl ⟨rfl, hsame.symm⟩
      | free =>
          rw [htype] at h
          cases hget : getRegion c.geometry s.root event.inPtr with
          | none =>
              have hsame : s = s' := by simpa [hget] using h
              exact Or.inl ⟨by simp, hsame.symm⟩
          | some p =>
              simp only [hget, Option.bind_eq_bind, Option.bind_eq_some_iff] at h
              rcases h with ⟨region, hregion, policy, hpolicy, root, hroot, hs'⟩
              obtain rfl := Option.some.inj hs'
              exact Or.inr (Or.inr (Or.inl ⟨event, output, chunksPtr, p, region, rfl, htype, hget,
                hregion, by simp, hpolicy, hroot⟩))
  | sample addr =>
      rcases Option.map_eq_some_iff.1 h with ⟨policy, hpolicy, rfl⟩
      exact Or.inr (Or.inr (Or.inr ⟨addr, rfl, rfl, hpolicy, rfl⟩))

end Steps

/-! ## The map stays exact -/

/-- The region map finds what the policy tracks, and every region is cut by `addRegion`. -/
structure Exact (s : Front c σ) : Prop where
  mapped : Mapped c.geometry c.window (s.tree P)
  cut : ∀ r ∈ P.regions s.policy, r.2.chunks = chunkTable c.chunkSize r.2.start r.2.size

namespace Exact

variable {P} {s s' : Front c σ} {p : RegionPtr} {region : ShamblesRegion} {a : Nat}

theorem init {policy : σ} (h : P.regions policy = []) : Exact P (Front.init c policy) := by
  have htree : (Front.init c policy).tree P = TreeState.init c.geometry := by
    simp [Front.tree, Front.init, h, TreeState.init]
  refine ⟨htree ▸ Mapped.init, ?_⟩
  intro r hr
  simp [Front.init, h] at hr

theorem fits (h : Exact P s) (hlive : (p, region) ∈ P.regions s.policy) :
    Fits c.geometry c.window region :=
  h.mapped.fits (p, region) hlive

theorem lookup (h : Exact P s) (hlive : (p, region) ∈ P.regions s.policy) :
    (P.regions s.policy).lookup p = some region :=
  lookup_of_mem h.mapped.tracks.keys hlive

/-- `getRegion` answers with a live region that contains the address. -/
theorem getRegion_sound (h : Exact P s) (ha : c.InWindow a)
    (hget : getRegion c.geometry s.root a = some p) :
    ∃ region, (P.regions s.policy).lookup p = some region ∧ region.start ≤ a ∧
      a < region.start + region.size :=
  h.mapped.getRegion_sound c.regular c.root_single ha ha.lt hget

/-- The division finds the chunk of an address. -/
theorem holdsAt (h : Exact P s) (hlive : (p, region) ∈ P.regions s.policy) (hle : region.start ≤ a)
    (hlt : a < region.start + region.size) :
    HoldsAt region a (chunkIndex c.chunkSize region a) := by
  have hcut : Cut c.chunkSize region := ⟨h.cut _ hlive, (h.fits hlive).bound⟩
  exact hcut.holdsAt_chunkIndex c.chunkSize_pos hle hlt

/-- What a sample is resolved to. -/
theorem chunkAt_eq_some (h : Exact P s) (ha : c.InWindow a) {n : NodePtr}
    (hn : s.chunkAt P a = some n) :
    ∃ region, getRegion c.geometry s.root a = some n.region ∧
      (P.regions s.policy).lookup n.region = some region ∧ region.start ≤ a ∧
      a < region.start + region.size ∧ HoldsAt region a n.index := by
  rcases Option.map_eq_some_iff.1 hn with ⟨⟨p, i⟩, hinfo, rfl⟩
  cases hget : getRegion c.geometry s.root a with
  | none => simp [getChunkInfo, Front.tree, hget] at hinfo
  | some q =>
      rcases h.getRegion_sound ha hget with ⟨region, hregion, hle, hlt⟩
      simp only [getChunkInfo, Front.tree, hget, hregion, Option.map_some, Option.some.injEq,
        Prod.mk.injEq] at hinfo
      rcases hinfo with ⟨rfl, rfl⟩
      exact ⟨region, rfl, hregion, hle, hlt, h.holdsAt (mem_of_lookup hregion) hle hlt⟩

theorem chunkAt_live (h : Exact P s) (ha : c.InWindow a) {n : NodePtr}
    (hn : s.chunkAt P a = some n) : LiveNode (P.regions s.policy) n := by
  rcases h.chunkAt_eq_some ha hn with ⟨region, _, hregion, _, _, hindex⟩
  exact ⟨region, hregion, hindex.lt⟩

/-- A sample is resolved to no chunk only where no region is found. -/
theorem chunkAt_eq_none (h : Exact P s) (ha : c.InWindow a) (hn : s.chunkAt P a = none) :
    getRegion c.geometry s.root a = none := by
  cases hget : getRegion c.geometry s.root a with
  | none => rfl
  | some p =>
      rcases h.getRegion_sound ha hget with ⟨region, hregion, _⟩
      simp [Front.chunkAt, getChunkInfo, Front.tree, hget, hregion] at hn

theorem enabled_alloc {event : AllocEvent} {output chunksPtr : Nat} (htype : event.type = .alloc)
    (hsize : c.sizeThresshold ≤ event.size)
    (hen : s.Enabled P (.callback event output chunksPtr)) :
    TreeState.Enabled c.sizeThresshold c.chunkSize (s.tree P)
        (.addRegion output chunksPtr event.outPtr event.size) ∧
      StepOk c.window (s.tree P) (.addRegion output chunksPtr event.outPtr event.size) := by
  simp only [Enabled, htype] at hen
  rcases hen hsize with ⟨hfresh, ⟨hlo, hhi⟩, hmax, hapart⟩
  have hwindow := c.window_lt
  refine ⟨⟨hfresh, hsize, by omega, c.chunkSize_pos, hmax⟩, ?_⟩
  intro range hrange
  obtain rfl : (event.outPtr, event.size) = range := Option.some.inj hrange
  exact ⟨hlo, hhi, hapart⟩

/-- Every report keeps the map exact, and the policy takes the step it is resolved to. -/
theorem step (h : Exact P s) {r : Report} (hen : s.Enabled P r) (hst : s.step P r = some s') :
    Exact P s' ∧ (s.resolve P r = [] ∧ s'.policy = s.policy ∨
      ∃ e, s.resolve P r = [e] ∧ P.system.enabled s.policy e ∧
        P.system.step s.policy e = some s'.policy) := by
  rcases step_cases hst with ⟨hnone, rfl⟩ |
    ⟨event, output, chunksPtr, added, rfl, htype, hsize, rfl, hres, hpol, hroot⟩ |
    ⟨event, output, chunksPtr, p, region, rfl, htype, hget, hregion, hres, hpol, hroot⟩ |
    ⟨addr, rfl, hres, hpol, hroot⟩
  · exact ⟨h, Or.inl ⟨hnone, rfl⟩⟩
  · rcases enabled_alloc htype hsize hen with ⟨hadd, hok⟩
    have hregions := P.regions_alloc _ _ _ _ hpol
    have htree : (s.tree P).step c.chunkSize
        (.addRegion output chunksPtr event.outPtr event.size) = some (s'.tree P) := by
      simp [TreeState.step, TreeState.add, Front.tree, hregions, hroot]
    have hpos : 0 < event.size := lt_of_lt_of_le c.sizeThresshold_pos hsize
    refine ⟨⟨h.mapped.step c.regular c.root_single c.sizeThresshold_pos c.slot_le hadd hok htree, ?_⟩,
      Or.inr ⟨_, hres, ⟨hadd.1, chunkTable_ne_nil _ _ hpos⟩, hpol⟩⟩
    intro r hr
    rw [hregions] at hr
    rcases List.mem_cons.1 hr with rfl | hr
    · simp [addRegion, ShamblesRegion.size, chunkTable_size]
    · exact h.cut r hr
  · have hregions := P.regions_free _ _ _ hpol
    have hlive : (P.regions s.policy).lookup p ≠ none := by
      rw [hregion]
      exact Option.some_ne_none region
    have hdel : TreeState.Enabled c.sizeThresshold c.chunkSize (s.tree P) (.deleteRegion p) := hlive
    have htree : (s.tree P).step c.chunkSize (.deleteRegion p) = some (s'.tree P) := by
      simp [TreeState.step, Front.tree, hregion, hroot, hregions]
    have hok : StepOk c.window (s.tree P) (.deleteRegion p) := by
      intro range hrange
      cases hrange
    refine ⟨⟨h.mapped.step c.regular c.root_single c.sizeThresshold_pos c.slot_le hdel hok htree, ?_⟩,
      Or.inr ⟨_, hres, hlive, hpol⟩⟩
    intro r hr
    rw [hregions] at hr
    exact h.cut r (List.mem_of_mem_filter hr)
  · have hregions := P.regions_sample _ _ _ _ hpol
    have htree : s'.tree P = s.tree P := by simp [Front.tree, hregions, hroot]
    refine ⟨⟨htree ▸ h.mapped, hregions ▸ h.cut⟩, Or.inr ⟨_, hres, ?_, hpol⟩⟩
    cases hchunk : s.chunkAt P addr with
    | none => trivial
    | some n => exact h.chunkAt_live hen hchunk

/-- A report has an outcome if the event it is resolved to has one. -/
theorem step_defined (h : Exact P s) {r : Report} (hen : s.Enabled P r)
    (hpolicy : ∀ e ∈ s.resolve P r, P.system.enabled s.policy e → ∃ t, P.step s.policy e = some t) :
    ∃ s', s.step P r = some s' := by
  cases r with
  | callback event output chunksPtr =>
      cases htype : event.type with
      | alloc =>
          by_cases hsize : c.sizeThresshold ≤ event.size
          · have hpos : 0 < event.size := lt_of_lt_of_le c.sizeThresshold_pos hsize
            rcases hpolicy (.alloc output (addRegion c.geometry c.chunkSize s.root output chunksPtr
              event.outPtr event.size).1) (by simp [resolve, htype, hsize])
                ⟨(enabled_alloc htype hsize hen).1.1, chunkTable_ne_nil _ _ hpos⟩ with ⟨t, ht⟩
            exact ⟨_, by simp [Front.step, allocCallback, htype, hsize, ht]; rfl⟩
          · exact ⟨s, by simp [Front.step, allocCallback, htype, hsize]⟩
      | realloc => exact ⟨s, by simp [Front.step, allocCallback, htype]⟩
      | free =>
          have ha : c.InWindow event.inPtr := by simpa [Enabled, htype] using hen
          cases hget : getRegion c.geometry s.root event.inPtr with
          | none => exact ⟨s, by simp [Front.step, allocCallback, htype, hget]⟩
          | some p =>
              rcases h.getRegion_sound ha hget with ⟨region, hregion, _⟩
              have hlive : P.system.enabled s.policy (.free p) :=
                fun hnone => Option.some_ne_none region (hregion.symm.trans hnone)
              rcases hpolicy (.free p) (by simp [resolve, htype, hget]) hlive with ⟨t, ht⟩
              rcases h.mapped.tracks.delete Matches.maintained hregion with ⟨root, hroot, _⟩
              have hroot' : deleteRegion c.geometry s.root region = some root := hroot
              exact ⟨⟨root, t⟩, by simp [Front.step, allocCallback, htype, hget, hregion, ht, hroot']⟩
  | sample addr =>
      have hlive : P.system.enabled s.policy (.sample addr (s.chunkAt P addr)) := by
        cases hchunk : s.chunkAt P addr with
        | none => trivial
        | some n => exact h.chunkAt_live hen hchunk
      rcases hpolicy _ (by simp [resolve]) hlive with ⟨t, ht⟩
      exact ⟨_, by simp [Front.step, handleSample, ht]; rfl⟩

end Exact

/-- Whatever is reported, the region map stays exact and the policy makes a run of its own on the
nodes the reports are resolved to. -/
theorem follows {policy : σ} (hinit : P.regions policy = []) {rs : List Report} {s : Front c σ}
    (h : Run (system P c) (Front.init c policy) rs s) :
    Exact P s ∧
      Run P.system policy ((system P c).collect (resolve P) (Front.init c policy) rs) s.policy :=
  Run.simulates (T := P.system) Front.policy (Exact.init hinit)
    (fun _ _ _ hs hen hst => hs.step hen hst) h

/-! ## Blocks -/

end Front

/-- The bytes of a region. -/
def blockOf (region : ShamblesRegion) : Allocation :=
  ⟨region.start, region.size⟩

/-- The block contains the address, and the region map finds it there. -/
def Seen (g : Geometry) (blocks : List Allocation) (a : Nat) (b : Allocation) : Prop :=
  (b.start ≤ a ∧ a < b.start + b.size) ∧
    FoundFrom g (blocks.map Allocation.start) b.start b.size a

instance (g : Geometry) (blocks : List Allocation) (a : Nat) (b : Allocation) :
    Decidable (Seen g blocks a b) :=
  inferInstanceAs (Decidable (_ ∧ _))

/-- The block an address is attributed to. -/
def blockAt (g : Geometry) (blocks : List Allocation) (a : Nat) : Option Allocation :=
  blocks.find? fun b => Seen g blocks a b

/-- The blocks of the live regions. -/
def blocksOf {g : Geometry} (t : TreeState g) : List Allocation :=
  t.regions.map fun r => blockOf r.2

end Plugins

namespace Structures
namespace Mapped

open AssocList Plugins
open Jemalloc (Allocation)

variable {g : Geometry} {W : Nat} {t : TreeState g} {p : RegionPtr} {region : ShamblesRegion}
  {a : Nat}

theorem seen_iff : Seen g (blocksOf t) a (blockOf region) ↔
    (region.start ≤ a ∧ a < region.start + region.size) ∧ Found g t.regions region a := by
  simp [Seen, Found, blocksOf, blockOf, Function.comp_def]

theorem getRegion_iff_seen (hg : g.Regular) (hfull : 39 ≤ g.nonLeafShift0) (h : Mapped g W t)
    (hW : (W + 1) * 2 ^ 39 < 2 ^ 64) (ha : a / 2 ^ 39 = W) :
    getRegion g t.root a = some p ↔
      ∃ region, (p, region) ∈ t.regions ∧ Seen g (blocksOf t) a (blockOf region) := by
  constructor
  · intro hget
    rcases h.getRegion_sound hg hfull ha (by omega) hget with ⟨region, hregion, hle, hlt⟩
    have hlive := mem_of_lookup hregion
    have hfound := (h.getRegion_eq_some_iff hg hfull hlive hle hlt).1 hget
    exact ⟨region, hlive, seen_iff.2 ⟨⟨hle, hlt⟩, hfound⟩⟩
  · rintro ⟨region, hlive, hseen⟩
    rcases seen_iff.1 hseen with ⟨⟨hle, hlt⟩, hfound⟩
    exact (h.getRegion_eq_some_iff hg hfull hlive hle hlt).2 hfound

/-- The region map and a search among the live regions attribute an address alike. -/
theorem find_seen (hg : g.Regular) (hfull : 39 ≤ g.nonLeafShift0) (h : Mapped g W t)
    (hW : (W + 1) * 2 ^ 39 < 2 ^ 64) (ha : a / 2 ^ 39 = W) :
    t.regions.find? (fun r => Seen g (blocksOf t) a (blockOf r.2)) =
      (getRegion g t.root a).bind fun p => (t.regions.lookup p).map fun region => (p, region) := by
  cases hget : getRegion g t.root a with
  | none =>
      refine List.find?_eq_none.2 ?_
      rintro ⟨p, region⟩ hlive hseen
      have hsome := (h.getRegion_iff_seen hg hfull hW ha).2 ⟨region, hlive, of_decide_eq_true hseen⟩
      exact Option.some_ne_none p (hsome.symm.trans hget)
  | some p =>
      rcases (h.getRegion_iff_seen hg hfull hW ha).1 hget with ⟨region, hlive, hseen⟩
      rw [Option.bind_some, lookup_of_mem h.tracks.keys hlive, Option.map_some]
      cases hfind : t.regions.find? fun r => Seen g (blocksOf t) a (blockOf r.2) with
      | none => exact absurd (decide_eq_true hseen) (List.find?_eq_none.1 hfind _ hlive)
      | some r =>
          -- whichever region is found first contains the address, so it is that of `p`
          have hseen' : Seen g (blocksOf t) a (blockOf r.2) := by
            simpa using List.find?_some hfind
          rw [h.eq_of_contains hlive (List.mem_of_find?_eq_some hfind) hseen.1 hseen'.1]

/-- The block of a live region is that region's alone. -/
theorem blockOf_eq_iff (h : Mapped g W t) {q : RegionPtr} {region' : ShamblesRegion}
    (hlive : (p, region) ∈ t.regions) (hlive' : (q, region') ∈ t.regions) :
    q = p ↔ blockOf region' = blockOf region := by
  have hpos : 0 < region.size := lt_of_lt_of_le (Nat.two_pow_pos _) (h.fits _ hlive).size
  constructor
  · rintro rfl
    rw [h.eq_of_mem hlive hlive']
  · intro hblock
    have hstart : region'.start = region.start := congrArg Allocation.start hblock
    have hsize : region'.size = region.size := congrArg Allocation.size hblock
    -- both contain the first byte
    exact (Prod.mk.inj (h.eq_of_contains (a := region.start) hlive' hlive (by omega) (by omega))).1

end Mapped
end Structures

namespace Plugins

open AssocList Structures
open Jemalloc (AllocEvent AllocEventType Allocation)

/-- The chunk a node stands for. -/
def chunkOf (regions : RegionMap) (n : NodePtr) : Option ShamblesChunk :=
  (regions.lookup n.region).bind fun region => region.chunks[n.index]?

theorem chunkOf_eq_some_iff {regions : RegionMap} {n : NodePtr} {k : ShamblesChunk} :
    chunkOf regions n = some k ↔
      ∃ region, regions.lookup n.region = some region ∧ region.chunks[n.index]? = some k :=
  Option.bind_eq_some_iff

theorem exists_chunkOf {regions : RegionMap} {n : NodePtr} (h : LiveNode regions n) :
    ∃ k, chunkOf regions n = some k := by
  rcases h with ⟨region, hregion, hindex⟩
  exact ⟨_, chunkOf_eq_some_iff.2 ⟨region, hregion, List.getElem?_eq_getElem hindex⟩⟩

theorem liveNode_of_chunkOf {regions : RegionMap} {n : NodePtr} {k : ShamblesChunk}
    (h : chunkOf regions n = some k) : LiveNode regions n := by
  rcases chunkOf_eq_some_iff.1 h with ⟨region, hregion, hindex⟩
  exact ⟨region, hregion, (List.getElem?_eq_some_iff.1 hindex).1⟩

namespace Front

variable {σ : Type} (P : MigrationPolicy σ) {c : Setup}

/-- The blocks a plugin tracks. -/
def blocks (s : Front c σ) : List Allocation :=
  (P.regions s.policy).map fun r => blockOf r.2

namespace Exact

variable {P} {s : Front c σ} {p : RegionPtr} {region : ShamblesRegion} {a : Nat}

theorem getRegion_eq_some_iff (h : Exact P s) (ha : c.InWindow a) :
    getRegion c.geometry s.root a = some p ↔
      ∃ region, (p, region) ∈ P.regions s.policy ∧
        Seen c.geometry (s.blocks P) a (blockOf region) :=
  h.mapped.getRegion_iff_seen c.regular c.root_single c.window_lt ha

/-- Two regions that contain one address are the same. -/
theorem eq_of_contains (h : Exact P s) {q : RegionPtr} {region' : ShamblesRegion}
    (hlive : (p, region) ∈ P.regions s.policy) (hlive' : (q, region') ∈ P.regions s.policy)
    (hin : region.start ≤ a ∧ a < region.start + region.size)
    (hin' : region'.start ≤ a ∧ a < region'.start + region'.size) : (p, region) = (q, region') :=
  h.mapped.eq_of_contains hlive hlive' hin hin'

/-- The region map and the list of blocks attribute an address alike. -/
theorem blockAt_eq (h : Exact P s) (ha : c.InWindow a) :
    blockAt c.geometry (s.blocks P) a =
      (getRegion c.geometry s.root a).bind fun p =>
        ((P.regions s.policy).lookup p).map blockOf := by
  have hfind := h.mapped.find_seen c.regular c.root_single c.window_lt ha
  have hmap := congrArg (Option.map fun r => blockOf r.2) hfind
  rw [Option.map_bind] at hmap
  rw [blockAt, Front.blocks, List.find?_map]
  refine hmap.trans (congrArg _ (funext fun p => ?_))
  simp [Function.comp_def, Front.tree]

/-! ### Chunks -/

variable {n : NodePtr} {k : ShamblesChunk}

theorem tiles (h : Exact P s) (hlive : (p, region) ∈ P.regions s.policy) :
    Tiles region.start region.chunks := by
  rw [h.cut _ hlive]
  exact chunkTable_tiles c.chunkSize_pos (h.fits hlive).bound

/-- A chunk is not empty and lies inside the block of its region. -/
theorem chunk_bounds (h : Exact P s) (hn : chunkOf (P.regions s.policy) n = some k) :
    ∃ region, (n.region, region) ∈ P.regions s.policy ∧ k.Covers k.start ∧
      ∀ a, k.Covers a → HoldsAt region a n.index ∧ region.start ≤ a ∧
        a < region.start + region.size := by
  rcases chunkOf_eq_some_iff.1 hn with ⟨region, hregion, hindex⟩
  have hlive := mem_of_lookup hregion
  have hmem : k ∈ chunkTable c.chunkSize region.start region.size := by
    rw [← h.cut _ hlive]
    exact List.mem_of_getElem? hindex
  have hpos := (chunkTable_bounds c.chunkSize_pos (h.fits hlive).bound k hmem).1
  refine ⟨region, hlive, ⟨le_refl _, by omega⟩, ?_⟩
  intro a ha
  exact ⟨(h.tiles hlive).holdsAt hindex ha,
    (h.tiles hlive).bounds k (List.mem_of_getElem? hindex) a ha⟩

theorem exists_chunkOf_of_mem (h : Exact P s) (hn : n ∈ liveNodes (P.regions s.policy)) :
    ∃ k, chunkOf (P.regions s.policy) n = some k := by
  rcases List.mem_flatMap.1 hn with ⟨⟨p, region⟩, hlive, hin⟩
  rcases mem_nodesOf.1 hin with ⟨rfl, hindex⟩
  exact exists_chunkOf ⟨region, h.lookup hlive, hindex⟩

/-- Only one node stands for an address. -/
theorem node_eq (h : Exact P s) {n' : NodePtr} {k' : ShamblesChunk}
    (hn : chunkOf (P.regions s.policy) n = some k)
    (hn' : chunkOf (P.regions s.policy) n' = some k') (ha : k.Covers a) (ha' : k'.Covers a) :
    n = n' := by
  rcases h.chunk_bounds hn with ⟨region, hlive, _, hin⟩
  rcases h.chunk_bounds hn' with ⟨region', hlive', _, hin'⟩
  rcases hin a ha with ⟨hat, hrange⟩
  rcases hin' a ha' with ⟨hat', hrange'⟩
  obtain ⟨hp, rfl⟩ := Prod.mk.inj (h.eq_of_contains hlive hlive' hrange hrange')
  rcases n with ⟨p, i⟩
  rcases n' with ⟨q, j⟩
  obtain rfl : p = q := hp
  obtain rfl : i = j := hat.unique hat'
  rfl

theorem oneToOne (h : Exact P s) :
    Relabel.OneToOne fun n k => chunkOf (P.regions s.policy) n = some k where
  left := by
    intro n n' k hn hn'
    rcases h.chunk_bounds hn with ⟨_, _, hstart, _⟩
    exact h.node_eq hn hn' hstart hstart
  right := by
    intro n k k' hn hn'
    exact Option.some.inj (hn.symm.trans hn')

/-- The chunk a sample is resolved to contains the address. -/
theorem chunkAt_covers (h : Exact P s) (ha : c.InWindow a) (hn : s.chunkAt P a = some n) :
    ∃ k, chunkOf (P.regions s.policy) n = some k ∧ k.Covers a := by
  rcases h.chunkAt_eq_some ha hn with ⟨region, _, hregion, _, _, ⟨k, hk, hcovers⟩, _⟩
  exact ⟨k, chunkOf_eq_some_iff.2 ⟨region, hregion, hk⟩, hcovers⟩

end Exact

end Front

end Plugins
end Shambles
