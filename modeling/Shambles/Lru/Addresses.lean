import Shambles.Lru.Inclusion
import Shambles.Plugins.Front

/-!
# Addresses — the LRU plugin from the outside

Seen from outside, `lru.so` is told addresses: blocks are allocated and released, bytes are sampled.
`Ideal` says what it is for in these terms alone, with neither tree nor nodes nor lists: a list of
blocks, and the chunks they are cut into, most recently sampled first.  The plugin behind the real
region map follows it report by report (`Tells`), and its fast chunks are the first ones of that
order.

The one trace the tree leaves in `Ideal` is `blockAt`: an address of a block is not attributed to it
in the slot of an aligned start, nor in most slots of an unaligned end.  A sample or a release of an
address that is not attributed to a block changes nothing, so a block with an aligned start stays
tracked when it is released, and new blocks are asked to lie outside of it (`Front.Enabled`).
-/

namespace Shambles
namespace Lru

open AssocList CircularList Structures Plugins
open Jemalloc (AllocEvent Allocation)

def policy : MigrationPolicy State where
  step := step
  regions := State.regions
  regions_alloc := by
    intro s s' p region h
    obtain rfl := Option.some.inj h
    exact allocRegion_regions s p region
  regions_free := by
    intro s s' p h
    rcases of_step_free h with ⟨region, _, rfl⟩
    exact freeRegion_regions s p region
  regions_sample := fun _ _ _ _ h => handleSample_regions h

/-! ## The purpose of the plugin -/

/-- The tracked blocks, and their chunks in order of the last sample attributed to them. -/
structure Ideal where
  blocks : List Allocation
  order : List ShamblesChunk
  deriving DecidableEq, Repr

namespace Ideal

def empty : Ideal :=
  ⟨[], []⟩

def alloc (c : Setup) (I : Ideal) (addr size : Nat) : Ideal :=
  ⟨⟨addr, size⟩ :: I.blocks, I.order ++ chunkTable c.chunkSize addr size⟩

def free (c : Setup) (I : Ideal) (addr : Nat) : Ideal :=
  match blockAt c.geometry I.blocks addr with
  | some b =>
      ⟨I.blocks.filter fun b' => b' ≠ b,
        I.order.filter fun k => ¬ (b.start ≤ k.start ∧ k.start < b.start + b.size)⟩
  | none => I

def sample (c : Setup) (I : Ideal) (addr : Nat) : Ideal :=
  match blockAt c.geometry I.blocks addr with
  | some _ =>
      match I.order.find? fun k => k.Covers addr with
      | some k => ⟨I.blocks, k :: I.order.erase k⟩
      | none => I
  | none => I

def step (c : Setup) (I : Ideal) : Report → Ideal
  | .callback event _ _ =>
      match event.type with
      | .alloc => if c.sizeThresshold ≤ event.size then I.alloc c event.outPtr event.size else I
      | .realloc => I
      | .free => I.free c event.inPtr
  | .sample addr => I.sample c addr

def after (c : Setup) (rs : List Report) : Ideal :=
  rs.foldl (step c) empty

theorem after_snoc (c : Setup) (rs : List Report) (r : Report) :
    after c (rs ++ [r]) = (after c rs).step c r := by
  simp [after]

end Ideal

/-! ## The plugin follows -/

/-- The nodes `L` and the blocks of the plugin are the chunks and blocks of `I`. -/
structure Tells {c : Setup} (s : Front c State) (L : List NodePtr) (I : Ideal) : Prop where
  blocks : s.blocks policy = I.blocks
  order : List.Forall₂ (fun n k => chunkOf s.policy.regions n = some k) L I.order

namespace Tells

variable {c : Setup} {s s' : Front c State} {L : List NodePtr} {I : Ideal}

/-- The nodes of a new region are its chunks, in order. -/
theorem nodesOf_chunks (p : RegionPtr) (region : ShamblesRegion) (regions : RegionMap) :
    List.Forall₂ (fun n k => chunkOf ((p, region) :: regions) n = some k) (nodesOf p region)
      region.chunks := by
  refine List.forall₂_iff_get.2 ⟨by simp [nodesOf, ShamblesRegion.nChunks], ?_⟩
  intro i hi hi'
  simp [nodesOf, chunkOf, hi']

theorem alloc (h : Tells s L I) (hlive : ∀ n ∈ L, LiveNode s.policy.regions n)
    {p : RegionPtr} {region : ShamblesRegion} (hfresh : s.policy.regions.lookup p = none)
    (hregions : s'.policy.regions = (p, region) :: s.policy.regions) :
    Tells s' (L ++ nodesOf p region)
      ⟨blockOf region :: I.blocks, I.order ++ region.chunks⟩ := by
  refine ⟨?_, ?_⟩
  · have hblocks := h.blocks
    simp only [Front.blocks, policy] at hblocks ⊢
    rw [hregions, List.map_cons, hblocks]
  · rw [hregions]
    refine List.rel_append (Relabel.mono_of_mem h.order ?_) (nodesOf_chunks p region _)
    intro n hn k hk
    have hne : n.region ≠ p := by
      rintro rfl
      rcases hlive n hn with ⟨_, hregion, _⟩
      exact Option.some_ne_none _ (hregion.symm.trans hfresh)
    rcases chunkOf_eq_some_iff.1 hk with ⟨region', hregion', hindex⟩
    exact chunkOf_eq_some_iff.2 ⟨region', by rw [lookup_cons_eq, if_neg hne, hregion'], hindex⟩

/-- Among the tracked blocks, the block of the released region is that region's alone. -/
theorem blocks_filter (h : Front.Exact policy s) {p : RegionPtr} {region : ShamblesRegion}
    (hlive : (p, region) ∈ s.policy.regions) :
    (s.policy.regions.filter fun r => r.1 ≠ p).map (fun r => blockOf r.2) =
      (s.policy.regions.map fun r => blockOf r.2).filter fun b => b ≠ blockOf region := by
  rw [List.filter_map]
  refine congrArg _ (List.filter_congr ?_)
  rintro ⟨q, region'⟩ hlive'
  have hsame : q = p ↔ blockOf region' = blockOf region := h.mapped.blockOf_eq_iff hlive hlive'
  simp [hsame]

theorem free (h : Tells s L I) (hex : Front.Exact policy s) {p : RegionPtr}
    {region : ShamblesRegion} (hregion : s.policy.regions.lookup p = some region)
    (hregions : s'.policy.regions = s.policy.regions.filter fun r => r.1 ≠ p) :
    Tells s' (L.filter fun n => n.region ≠ p)
      ⟨I.blocks.filter fun b => b ≠ blockOf region,
        I.order.filter fun k =>
          ¬ (region.start ≤ k.start ∧ k.start < region.start + region.size)⟩ := by
  have hmem := mem_of_lookup hregion
  refine ⟨?_, ?_⟩
  · rw [← h.blocks]
    simp only [Front.blocks, policy]
    rw [hregions, blocks_filter hex hmem]
  · have hkept := Relabel.filter
      (p := fun n => decide (n.region ≠ p))
      (q := fun k => decide ¬ (region.start ≤ k.start ∧ k.start < region.start + region.size))
      h.order ?_
    · refine Relabel.mono_of_mem hkept ?_
      intro n hn k hk
      have hne : n.region ≠ p := by simpa using (List.mem_filter.1 hn).2
      rw [hregions]
      rcases chunkOf_eq_some_iff.1 hk with ⟨region', hregion', hindex⟩
      exact chunkOf_eq_some_iff.2 ⟨region', by rw [lookup_filter_ne, if_neg hne, hregion'], hindex⟩
    · -- a chunk starts in the released block exactly if its node is of the released region
      intro n hn k hk
      rcases hex.chunk_bounds hk with ⟨region', hlive', hstart, hin⟩
      have hrange := (hin k.start hstart).2
      have hiff : n.region = p ↔ region.start ≤ k.start ∧ k.start < region.start + region.size := by
        constructor
        · rintro rfl
          obtain rfl := hex.mapped.eq_of_mem hmem hlive'
          exact hrange
        · intro hin'
          exact (Prod.mk.inj (hex.eq_of_contains hlive' hmem hrange hin')).1
      simp [hiff]

theorem sample (h : Tells s L I) (hex : Front.Exact policy s) {addr : Nat}
    (ha : c.InWindow addr) {n : NodePtr} (hn : s.chunkAt policy addr = some n) (hmem : n ∈ L)
    (hregions : s'.policy.regions = s.policy.regions) :
    ∃ k, I.order.find? (fun k => k.Covers addr) = some k ∧
      Tells s' (n :: L.erase n) ⟨I.blocks, k :: I.order.erase k⟩ := by
  rcases hex.chunkAt_covers ha hn with ⟨k, hk, hcovers⟩
  refine ⟨k, ?_, ?_, ?_⟩
  · refine Relabel.find?_eq h.order hmem hk ?_ hex.oneToOne
    intro x _ y hy
    rw [decide_eq_true_iff]
    constructor
    · intro hy'
      exact hex.node_eq hy hk hy' hcovers
    · rintro rfl
      exact hex.oneToOne.right hk hy ▸ hcovers
  · rw [← h.blocks]
    simp only [Front.blocks, policy]
    rw [hregions]
  · rw [hregions]
    exact List.Forall₂.cons hk (Relabel.erase h.order hex.oneToOne hk)

theorem same (h : Tells s L I) (hregions : s'.policy.regions = s.policy.regions) : Tells s' L I := by
  refine ⟨?_, ?_⟩
  · rw [← h.blocks]
    simp only [Front.blocks, policy]
    rw [hregions]
  · rw [hregions]
    exact h.order

/-- Every report does to the order of addresses what it does to the list of nodes. -/
theorem step (h : Tells s L I) (hex : Front.Exact policy s)
    (hL : ∀ n, n ∈ L ↔ LiveNode s.policy.regions n) {r : Report} (hen : s.Enabled policy r)
    (hst : s.step policy r = some s') :
    Tells s' ((s.resolve policy r).foldl recencyStep L) (I.step c r) := by
  rcases Front.step_cases hst with ⟨hnone, rfl⟩ |
    ⟨event, output, chunksPtr, added, rfl, htype, hsize, rfl, hres, hpol, hroot⟩ |
    ⟨event, output, chunksPtr, p, region, rfl, htype, hget, hregion, hres, hpol, hroot⟩ |
    ⟨addr, rfl, hres, hpol, hroot⟩
  · rw [hnone]
    have hsame : I.step c r = I := by
      cases r with
      | callback event output chunksPtr =>
          cases htype : event.type with
          | alloc =>
              have hsmall : ¬ c.sizeThresshold ≤ event.size := by
                simpa [Front.resolve, htype] using hnone
              simp [Ideal.step, htype, hsmall]
          | realloc => simp [Ideal.step, htype]
          | free =>
              have ha : c.InWindow event.inPtr := by simpa [Front.Enabled, htype] using hen
              have hget : Structures.getRegion c.geometry s'.root event.inPtr = none := by
                simpa [Front.resolve, htype] using hnone
              have hblock := hex.blockAt_eq ha
              rw [hget, h.blocks] at hblock
              simp [Ideal.step, htype, Ideal.free, hblock]
      | sample addr => simp [Front.resolve] at hnone
    rw [hsame]
    exact h
  · rw [hres]
    have hregions : s'.policy.regions = _ :: s.policy.regions := policy.regions_alloc _ _ _ _ hpol
    have hfresh : s.policy.regions.lookup output = none :=
      (Front.Exact.enabled_alloc htype hsize hen).1.1
    have hnew := h.alloc (fun n hn => (hL n).1 hn) hfresh hregions
    have hblock : blockOf (Structures.addRegion c.geometry c.chunkSize s.root output chunksPtr event.outPtr
        event.size).1 = ⟨event.outPtr, event.size⟩ := by
      simp [blockOf, Structures.addRegion, ShamblesRegion.size, chunkTable_size]
    have hideal : I.step c (.callback event output chunksPtr) = I.alloc c event.outPtr event.size := by
      simp [Ideal.step, htype, hsize]
    rw [hblock] at hnew
    rw [hideal]
    exact hnew
  · rw [hres]
    have ha : c.InWindow event.inPtr := by simpa [Front.Enabled, htype] using hen
    have hblock := hex.blockAt_eq ha
    rw [hget, Option.bind_some, hregion, h.blocks] at hblock
    have hgone := h.free hex hregion (policy.regions_free _ _ _ hpol)
    simp only [Ideal.step, htype, Ideal.free, hblock, Option.map_some]
    exact hgone
  · rw [hres]
    have ha : c.InWindow addr := hen
    have hregions : s'.policy.regions = s.policy.regions := policy.regions_sample _ _ _ _ hpol
    have hblock := hex.blockAt_eq ha
    rw [h.blocks] at hblock
    cases hchunk : s.chunkAt policy addr with
    | none =>
        rw [hex.chunkAt_eq_none ha hchunk, Option.bind_none] at hblock
        simp only [Ideal.step, Ideal.sample, hblock]
        exact h.same hregions
    | some n =>
        rcases hex.chunkAt_eq_some ha hchunk with ⟨region, hget, hregion, _⟩
        have hregion' : (policy.regions s.policy).lookup n.region = some region := hregion
        rw [hget, Option.bind_some, hregion', Option.map_some] at hblock
        rcases h.sample hex ha hchunk ((hL n).2 (hex.chunkAt_live ha hchunk)) hregions with
          ⟨k, hfind, hnext⟩
        simp only [Ideal.step, Ideal.sample, hblock, hfind]
        exact hnext

end Tells

/-! ## Runs -/

/-- The nodes of a run of reports in order of recency. -/
def nodeOrder (c : Setup) (C : Nat) (rs : List Report) : List NodePtr :=
  recency ((Front.system policy c).collect (Front.resolve policy) (Front.init c (lruInit C)) rs)

theorem tells_run {c : Setup} {C : Nat} (hmax : C ≤ INT_MAX) {rs : List Report}
    {s : Front c State} (h : Run (Front.system policy c) (Front.init c (lruInit C)) rs s) :
    Front.Exact policy s ∧ Refines C s.policy (nodeOrder c C rs) ∧
      Tells s (nodeOrder c C rs) (Ideal.after c rs) := by
  have hfollows : ∀ {rs : List Report} {s : Front c State},
      Run (Front.system policy c) (Front.init c (lruInit C)) rs s →
        Front.Exact policy s ∧ Refines C s.policy (nodeOrder c C rs) := by
    intro rs s h
    rcases Front.follows policy rfl h with ⟨hex, hrun⟩
    exact ⟨hex, Refines.run hmax hrun⟩
  refine ⟨(hfollows h).1, (hfollows h).2, ?_⟩
  induction h with
  | nil => exact ⟨rfl, List.Forall₂.nil⟩
  | snoc hrun hen hst ih =>
      rcases hfollows hrun with ⟨hex, href⟩
      rw [Ideal.after_snoc, nodeOrder, hrun.collect_snoc, recency, List.foldl_append]
      exact ih.step hex href.live hen hst

/-- What the plugin promises about the addresses of `I` with room for `C` chunks. -/
structure KeepsOrder {c : Setup} (C : Nat) (s : Front c State) (I : Ideal) : Prop where
  blocks : s.blocks policy = I.blocks
  /-- Every byte of a tracked block lies in one chunk of the order. -/
  cut : ∀ b ∈ I.blocks, ∀ a, b.start ≤ a → a < b.start + b.size → ∃! k, k ∈ I.order ∧ k.Covers a
  /-- `mru` followed by `lru` is the order, and `mru` is as long as the capacity allows. -/
  lists : ∃ m l, Reads s.policy.links s.policy.mru m ∧ Reads s.policy.links s.policy.lru l ∧
    List.Forall₂ (fun n k => chunkOf s.policy.regions n = some k) (m ++ l) I.order ∧
    m.length = min C I.order.length
  fast : ∀ n k, chunkOf s.policy.regions n = some k →
    (s.policy.loc n = .fast ↔ k ∈ I.order.take C)
  /-- Every further report has an outcome. -/
  defined : ∀ r, s.Enabled policy r → ∃ s', s.step policy r = some s'

theorem Tells.cut {c : Setup} {s : Front c State} {L : List NodePtr} {I : Ideal} (h : Tells s L I)
    (hex : Front.Exact policy s) (hL : ∀ n, n ∈ L ↔ LiveNode s.policy.regions n) {b : Allocation}
    (hb : b ∈ I.blocks) {a : Nat} (hle : b.start ≤ a) (hlt : a < b.start + b.size) :
    ∃! k, k ∈ I.order ∧ k.Covers a := by
  rw [← h.blocks] at hb
  rcases List.mem_map.1 hb with ⟨⟨p, region⟩, hlive, rfl⟩
  have hat := hex.holdsAt hlive hle hlt
  rcases hat.1 with ⟨k, hk, hcovers⟩
  have hn : chunkOf s.policy.regions ⟨p, chunkIndex c.chunkSize region a⟩ = some k :=
    chunkOf_eq_some_iff.2 ⟨region, hex.lookup hlive, hk⟩
  have hmem := (hL _).2 (liveNode_of_chunkOf hn)
  refine ⟨k, ⟨(Relabel.mem_iff h.order hex.oneToOne hn).1 hmem, hcovers⟩, ?_⟩
  rintro k' ⟨hk', hcovers'⟩
  rcases Relabel.exists_of_mem h.order.flip hk' with ⟨n', _, hn'⟩
  exact hex.oneToOne.right (hex.node_eq hn' hn hcovers' hcovers ▸ hn') hn

theorem Tells.keepsOrder {c : Setup} {C : Nat} {s : Front c State} {L : List NodePtr} {I : Ideal}
    (h : Tells s L I) (hC : 1 ≤ C) (hex : Front.Exact policy s) (href : Refines C s.policy L) :
    KeepsOrder C s I := by
  refine ⟨h.blocks, ?_, ?_, ?_, ?_⟩
  · intro b hb a hle hlt
    exact h.cut hex href.live hb hle hlt
  · rcases href.rep with ⟨m, l, hrep, heq⟩
    refine ⟨m, l, hrep.lists.left, hrep.lists.right, heq ▸ h.order, ?_⟩
    rw [← h.order.length_eq, ← heq, List.length_append]
    exact hrep.full
  · intro n k hk
    rw [href.mem_take_iff (liveNode_of_chunkOf hk)]
    exact Relabel.mem_iff (List.forall₂_take C h.order) hex.oneToOne hk
  · intro r hen
    refine hex.step_defined hen ?_
    intro e _ he
    rcases href.step hC he with ⟨t, ht, _⟩
    exact ⟨t, ht⟩

/-- Told bare addresses through the region map, the plugin keeps the chunks of the tracked blocks in
the order of the last samples attributed to them, and the first `C` of them tagged as fast. -/
theorem lru_keeps_order {c : Setup} {C : Nat} (hC : 1 ≤ C) (hmax : C ≤ INT_MAX) {rs : List Report}
    {s : Front c State} (h : Run (Front.system policy c) (Front.init c (lruInit C)) rs s) :
    KeepsOrder C s (Ideal.after c rs) := by
  rcases tells_run hmax h with ⟨hex, href, htells⟩
  exact htells.keepsOrder hC hex href

/-- Two blocks that meet in a slot: a byte in the last slot of the first one is attributed to it since
the second one starts there.  Both are sampled, then the first is released. -/
theorem lru_keeps_order_two_blocks :
    ∃ s, Run (Front.system policy .halfSlots) (Front.init .halfSlots (lruInit 2))
        [.callback ⟨.alloc, 0, 0x18000, 0x20000⟩ 1 0x900,
          .callback ⟨.alloc, 0, 0x3a000, 0x18000⟩ 2 0x800,
          .sample 0x44000, .sample 0x34000, .callback ⟨.free, 0x18000, 0, 0⟩ 0 0] s ∧
      KeepsOrder 2 s ⟨[⟨0x3a000, 0x18000⟩],
        [⟨0x42000, 0x8000⟩, ⟨0x3a000, 0x8000⟩, ⟨0x4a000, 0x8000⟩]⟩ := by
  rcases Run.of_exec (Front.system policy .halfSlots) (Front.init .halfSlots (lruInit 2))
    [.callback ⟨.alloc, 0, 0x18000, 0x20000⟩ 1 0x900,
      .callback ⟨.alloc, 0, 0x3a000, 0x18000⟩ 2 0x800,
      .sample 0x44000, .sample 0x34000, .callback ⟨.free, 0x18000, 0, 0⟩ 0 0] (by decide) with
    ⟨s, _, hrun⟩
  exact ⟨s, hrun, lru_keeps_order (by decide) (by decide) hrun⟩

end Lru
end Shambles
