import Shambles.Plugins.Front
import Shambles.Window.Policy
import Shambles.Window.Ring

/-!
# Addresses — the window plugin from the outside

As for the LRU plugin, `Ideal` says in terms of addresses alone what `window.so` is for: it remembers
the blocks and the sampled addresses that were attributed to one of them.  A chunk is worth as much
as the number of the last `W` of these addresses that lie in it, and the fast chunks are worth most.

The plugin behind the real region map keeps this up in every run of reports that the map can stand
(`Front.Enabled`) and its policy too (`StepOk`): without releases of a tracked block, and without the
two kinds of samples on which the promotion goes wrong.
-/

namespace Shambles
namespace Window

open AssocList RingBuffer Structures Plugins
open Jemalloc (AllocEvent Allocation)

/-! ## The policy -/

def policy : MigrationPolicy State where
  step := step
  regions := State.regions
  regions_alloc := fun _ _ _ _ h => allocRegion_regions h
  regions_free := by
    intro s s' p h
    simp only [step] at h
    split at h
    · exact freeRegion_regions h
    · cases h
  regions_sample := fun _ _ _ _ h => handleSample_regions h

/-- The policy can stand what the report is resolved to. -/
def ReportOk {c : Setup} (s : Front c State) (r : Report) : Prop :=
  ∀ e ∈ s.resolve policy r, StepOk s.policy e

instance {c : Setup} (s : Front c State) (r : Report) : Decidable (ReportOk s r) :=
  inferInstanceAs (Decidable (∀ e ∈ s.resolve policy r, StepOk s.policy e))

instance {c : Setup} (s : Front c State) (r : Report) :
    Decidable (((Front.system policy c).restrict ReportOk).enabled s r) :=
  inferInstanceAs (Decidable (s.Enabled policy r ∧ ReportOk s r))

/-! ## The purpose of the plugin -/

/-- The tracked blocks, and the sampled addresses that were attributed to one, oldest first. -/
structure Ideal where
  blocks : List Allocation
  samples : List Nat
  deriving DecidableEq, Repr

namespace Ideal

def empty : Ideal :=
  ⟨[], []⟩

def step (c : Setup) (I : Ideal) : Report → Ideal
  | .callback event _ _ =>
      match event.type with
      | .alloc =>
          if c.sizeThresshold ≤ event.size then
            { I with blocks := ⟨event.outPtr, event.size⟩ :: I.blocks }
          else
            I
      | .realloc => I
      | .free => I
  | .sample addr =>
      if (blockAt c.geometry I.blocks addr).isSome then
        { I with samples := I.samples ++ [addr] }
      else
        I

def after (c : Setup) (rs : List Report) : Ideal :=
  rs.foldl (step c) empty

theorem after_snoc (c : Setup) (rs : List Report) (r : Report) :
    after c (rs ++ [r]) = (after c rs).step c r := by
  simp [after]

def chunks (c : Setup) (I : Ideal) : List ShamblesChunk :=
  I.blocks.flatMap fun b => chunkTable c.chunkSize b.start b.size

/-- How many of the last `W` sampled addresses lie in a chunk. -/
def hits (W : Nat) (I : Ideal) (k : ShamblesChunk) : Nat :=
  (lastN W I.samples).countP fun a => k.Covers a

end Ideal

/-! ## The plugin follows -/

theorem tracked_singleton (e : Event) : tracked [e] = (sampledNode e).toList := by
  simpa [tracked] using tracked_snoc [] e

/-- The nodes `T` were sampled where `I` has the addresses. -/
structure Tells {c : Setup} (s : Front c State) (T : List NodePtr) (I : Ideal) : Prop where
  blocks : s.blocks policy = I.blocks
  samples : List.Forall₂ (fun n a => ∃ k, chunkOf s.policy.regions n = some k ∧ k.Covers a) T
    I.samples

namespace Tells

variable {c : Setup} {s s' : Front c State} {T : List NodePtr} {I : Ideal}

theorem alloc (h : Tells s T I) {p : RegionPtr} {region : ShamblesRegion}
    (hfresh : s.policy.regions.lookup p = none)
    (hregions : s'.policy.regions = (p, region) :: s.policy.regions) :
    Tells s' T { I with blocks := blockOf region :: I.blocks } := by
  refine ⟨?_, ?_⟩
  · have hblocks := h.blocks
    simp only [Front.blocks, policy] at hblocks ⊢
    rw [hregions, List.map_cons, hblocks]
  · rw [hregions]
    refine Relabel.mono_of_mem h.samples ?_
    rintro n - a ⟨k, hk, hcovers⟩
    refine ⟨k, ?_, hcovers⟩
    rcases chunkOf_eq_some_iff.1 hk with ⟨region', hregion', hindex⟩
    have hne : n.region ≠ p := by
      rintro rfl
      exact Option.some_ne_none _ (hregion'.symm.trans hfresh)
    exact chunkOf_eq_some_iff.2 ⟨region', by rw [lookup_cons_eq, if_neg hne, hregion'], hindex⟩

theorem same (h : Tells s T I) (hregions : s'.policy.regions = s.policy.regions) : Tells s' T I := by
  refine ⟨?_, ?_⟩
  · rw [← h.blocks]
    simp only [Front.blocks, policy]
    rw [hregions]
  · rw [hregions]
    exact h.samples

theorem sample (h : Tells s T I) (hex : Front.Exact policy s) {addr : Nat} (ha : c.InWindow addr)
    {n : NodePtr} (hn : s.chunkAt policy addr = some n)
    (hregions : s'.policy.regions = s.policy.regions) :
    Tells s' (T ++ [n]) { I with samples := I.samples ++ [addr] } := by
  have hsame := h.same hregions
  refine ⟨hsame.blocks, List.rel_append hsame.samples (List.Forall₂.cons ?_ List.Forall₂.nil)⟩
  rw [hregions]
  exact hex.chunkAt_covers ha hn

/-- Every report does to the sampled addresses what it does to the sampled nodes. -/
theorem step (h : Tells s T I) (hex : Front.Exact policy s) {r : Report}
    (hen : s.Enabled policy r) (hok : ReportOk s r) (hst : s.step policy r = some s') :
    Tells s' (T ++ tracked (s.resolve policy r)) (I.step c r) := by
  rcases Front.step_cases hst with ⟨hnone, rfl⟩ |
    ⟨event, output, chunksPtr, added, rfl, htype, hsize, rfl, hres, hpol, hroot⟩ |
    ⟨event, output, chunksPtr, p, region, rfl, htype, hget, hregion, hres, hpol, hroot⟩ |
    ⟨addr, rfl, hres, hpol, hroot⟩
  · have hsame : I.step c r = I := by
      cases r with
      | callback event output chunksPtr =>
          cases htype : event.type with
          | alloc =>
              have hsmall : ¬ c.sizeThresshold ≤ event.size := by
                simpa [Front.resolve, htype] using hnone
              simp [Ideal.step, htype, hsmall]
          | realloc => simp [Ideal.step, htype]
          | free => simp [Ideal.step, htype]
      | sample addr => simp [Front.resolve] at hnone
    rw [hnone, hsame]
    simpa [tracked] using h
  · have hregions : s'.policy.regions = _ :: s.policy.regions := policy.regions_alloc _ _ _ _ hpol
    have hfresh : s.policy.regions.lookup output = none :=
      (Front.Exact.enabled_alloc htype hsize hen).1.1
    have hnew := h.alloc hfresh hregions
    have hblock : blockOf (addRegion c.geometry c.chunkSize s.root output chunksPtr event.outPtr
        event.size).1 = ⟨event.outPtr, event.size⟩ := by
      simp [blockOf, addRegion, ShamblesRegion.size, chunkTable_size]
    rw [hblock] at hnew
    rw [hres, tracked_singleton]
    simpa [Ideal.step, htype, hsize, sampledNode] using hnew
  · -- a release of a tracked block is excluded
    have hfree := hok (.free p) (by simp [hres])
    exact False.elim hfree
  · have ha : c.InWindow addr := hen
    have hregions : s'.policy.regions = s.policy.regions := policy.regions_sample _ _ _ _ hpol
    have hblock := hex.blockAt_eq ha
    rw [h.blocks] at hblock
    rw [hres, tracked_singleton]
    cases hchunk : s.chunkAt policy addr with
    | none =>
        rw [hex.chunkAt_eq_none ha hchunk, Option.bind_none] at hblock
        simpa [Ideal.step, hblock, sampledNode] using h.same hregions
    | some n =>
        rcases hex.chunkAt_eq_some ha hchunk with ⟨region, hget, hregion, _⟩
        have hregion' : (policy.regions s.policy).lookup n.region = some region := hregion
        rw [hget, Option.bind_some, hregion', Option.map_some] at hblock
        simpa [Ideal.step, hblock, sampledNode] using h.sample hex ha hchunk hregions

/-- A chunk occurs as often among the sampled nodes as it is hit. -/
theorem occurrences_eq (h : Tells s (tracked es) I) (hex : Front.Exact policy s) {W : Nat}
    {n : NodePtr} {k : ShamblesChunk} (hn : chunkOf s.policy.regions n = some k) :
    occurrences W es n = I.hits W k := by
  have hlast : List.Forall₂ (fun n a => ∃ k, chunkOf s.policy.regions n = some k ∧ k.Covers a)
      (lastN W (tracked es)) (lastN W I.samples) := by
    rw [lastN, lastN, h.samples.length_eq]
    exact List.forall₂_drop _ h.samples
  rw [occurrences, Ideal.hits, List.count]
  refine Relabel.countP_eq hlast ?_
  rintro n' - a ⟨k', hk', hcovers⟩
  have hiff : n' = n ↔ k.Covers a := by
    constructor
    · rintro rfl
      exact hex.oneToOne.right hk' hn ▸ hcovers
    · intro hin
      exact hex.node_eq hk' hn hcovers hin
  rw [beq_eq_decide, decide_eq_decide]
  exact hiff

end Tells

/-! ## Runs -/

/-- The nodes' side of a run of reports. -/
def nodeEvents (c : Setup) (C W : Nat) (rs : List Report) : List Event :=
  ((Front.system policy c).restrict ReportOk).collect (Front.resolve policy)
    (Front.init c (windowInit C c.chunkSize W)) rs

section Runs

variable {c : Setup} {C W : Nat} {rs : List Report} {s : Front c State}

theorem follows_run (hC : 1 ≤ C) (hmax : C ≤ INT_MAX) (hW : 0 < W)
    (h : Run ((Front.system policy c).restrict ReportOk)
      (Front.init c (windowInit C c.chunkSize W)) rs s) :
    Front.Exact policy s ∧ ∃ F S, Follows C W (tracked (nodeEvents c C W rs)) s.policy F S := by
  have hsim := Run.simulates (T := system.restrict StepOk) (f := Front.resolve policy) Front.policy
    (P := Front.Exact policy) (Front.Exact.init rfl) ?_ h
  · exact ⟨hsim.1, Follows.run hC hmax hW hsim.2⟩
  · intro s r s' hex hen hst
    rcases hex.step hen.1 hst with ⟨hex', hnone | ⟨e, hone, hene, hste⟩⟩
    · exact ⟨hex', Or.inl hnone⟩
    · exact ⟨hex', Or.inr ⟨e, hone, ⟨hene, hen.2 e (by simp [hone])⟩, hste⟩⟩

theorem tells_run (hC : 1 ≤ C) (hmax : C ≤ INT_MAX) (hW : 0 < W)
    (h : Run ((Front.system policy c).restrict ReportOk)
      (Front.init c (windowInit C c.chunkSize W)) rs s) :
    Tells s (tracked (nodeEvents c C W rs)) (Ideal.after c rs) := by
  induction h with
  | nil => exact ⟨rfl, List.Forall₂.nil⟩
  | snoc hrun hen hst ih =>
      have hnext := ih.step (follows_run hC hmax hW hrun).1 hen.1 hen.2 hst
      rw [Ideal.after_snoc, nodeEvents, hrun.collect_snoc, tracked, List.filterMap_append]
      exact hnext

end Runs

/-! ## What is fast -/

section Chunks

variable {c : Setup} {s : Front c State} {T : List NodePtr} {I : Ideal}

theorem Tells.length_chunks (h : Tells s T I) (hex : Front.Exact policy s) :
    (I.chunks c).length = (liveNodes s.policy.regions).length := by
  rw [Ideal.chunks, ← h.blocks, Front.blocks, List.flatMap_map, liveNodes, List.length_flatMap,
    List.length_flatMap]
  refine congrArg List.sum (List.map_congr_left ?_)
  intro r hr
  simp [nodesOf, ShamblesRegion.nChunks, hex.cut r hr, blockOf]

theorem Tells.mem_chunks (h : Tells s T I) (hex : Front.Exact policy s) {n : NodePtr}
    {k : ShamblesChunk} (hn : chunkOf s.policy.regions n = some k) : k ∈ I.chunks c := by
  rcases chunkOf_eq_some_iff.1 hn with ⟨region, hregion, hindex⟩
  have hlive : (n.region, region) ∈ policy.regions s.policy := mem_of_lookup hregion
  rw [Ideal.chunks, ← h.blocks, Front.blocks, List.flatMap_map]
  refine List.mem_flatMap.2 ⟨(n.region, region), hlive, ?_⟩
  have hcut := hex.cut _ hlive
  simp only [blockOf]
  rw [← hcut]
  exact List.mem_of_getElem? hindex

end Chunks

/-- What the plugin promises about the addresses of `I` with room for `C` chunks. -/
structure KeepsFrequent {c : Setup} (C W : Nat) (s : Front c State) (I : Ideal) : Prop where
  blocks : s.blocks policy = I.blocks
  number : (liveNodes s.policy.regions).countP (fun n => s.policy.loc n = .fast) =
    min C (I.chunks c).length
  fast : ∀ f kf g kg, chunkOf s.policy.regions f = some kf → chunkOf s.policy.regions g = some kg →
    s.policy.loc f = .fast → s.policy.loc g = .slow → I.hits W kg ≤ I.hits W kf
  /-- A chunk is slow only if `C` others are hit as often.  So chunks that share the last `W`
  attributed samples among `C` of them are all fast. -/
  slow : ∀ g kg, chunkOf s.policy.regions g = some kg → s.policy.loc g = .slow →
    ∃ ks : List ShamblesChunk, ks.Nodup ∧ ks.length = C ∧
      ∀ k ∈ ks, k ∈ I.chunks c ∧ k ≠ kg ∧ I.hits W kg ≤ I.hits W k
  /-- Every further report that the policy can stand has an outcome. -/
  defined : ∀ r, s.Enabled policy r → ReportOk s r → ∃ s', s.step policy r = some s'

/-- Told bare addresses through the region map, the plugin keeps the chunks tagged as fast that
contain most of the last `W` sampled addresses attributed to a block. -/
theorem window_keeps_frequent {c : Setup} {C W : Nat} (hC : 1 ≤ C) (hmax : C ≤ INT_MAX)
    (hW : 1 ≤ W) {rs : List Report} {s : Front c State}
    (h : Run ((Front.system policy c).restrict ReportOk)
      (Front.init c (windowInit C c.chunkSize W)) rs s) :
    KeepsFrequent C W s (Ideal.after c rs) := by
  rcases follows_run hC hmax hW h with ⟨hex, F, S, hfollows⟩
  have htells := tells_run hC hmax hW h
  have hv := hfollows.valid
  -- a count is the number of hits
  have hcount : ∀ n ∈ F ++ S, ∀ k, chunkOf s.policy.regions n = some k →
      s.policy.count n = (Ideal.after c rs).hits W k := by
    intro n hn k hk
    rw [hfollows.counted n hn, hfollows.ring.count_eq, ← htells.occurrences_eq hex hk, occurrences]
  have hmem : ∀ n k, chunkOf s.policy.regions n = some k → n ∈ F ++ S :=
    fun n k hk => hfollows.mem_of_live (liveNode_of_chunkOf hk)
  have hslow : ∀ n k, chunkOf s.policy.regions n = some k → s.policy.loc n = .slow → n ∈ S := by
    intro n k hk hloc
    rcases List.mem_append.1 (hmem n k hk) with hF | hS
    · simp [hv.loc_fast n hF] at hloc
    · exact hS
  have hranked : ∀ f ∈ F, ∀ g ∈ S, s.policy.count g ≤ s.policy.count f :=
    (RankedList.Ranked.append_iff.1 hv.ranked).2.2
  refine ⟨htells.blocks, ?_, ?_, ?_, ?_⟩
  · rw [← hfollows.live.countP_eq, hv.countP_fast, htells.length_chunks hex,
      ← hfollows.live.length_eq, List.length_append]
    exact hfollows.full
  · intro f kf g kg hf hg hfloc hgloc
    have hfF : f ∈ F := by
      rcases List.mem_append.1 (hmem f kf hf) with hF | hS
      · exact hF
      · simp [hv.loc_slow f hS] at hfloc
    have hgS := hslow g kg hg hgloc
    rw [← hcount f (hmem f kf hf) kf hf, ← hcount g (hmem g kg hg) kg hg]
    exact hranked f hfF g hgS
  · intro g kg hg hgloc
    have hgS := hslow g kg hg hgloc
    have hpos : 0 < S.length := List.length_pos_of_mem hgS
    have hfull := hfollows.full
    have hlive : ∀ f ∈ F, ∃ k, chunkOf s.policy.regions f = some k := by
      intro f hf
      exact hex.exists_chunkOf_of_mem (hfollows.live.subset (List.mem_append_left S hf))
    refine ⟨F.filterMap (chunkOf s.policy.regions), ?_, ?_, ?_⟩
    · exact hv.lists.left.circular.nodup.filterMap fun n n' k hn hn' => hex.oneToOne.left hn hn'
    · rw [List.filterMap_length_eq_length.2]
      · omega
      · intro f hf
        rcases hlive f hf with ⟨k, hk⟩
        simp [hk]
    · intro k hk
      rcases List.mem_filterMap.1 hk with ⟨f, hf, hfk⟩
      refine ⟨htells.mem_chunks hex hfk, ?_, ?_⟩
      · rintro rfl
        obtain rfl := hex.oneToOne.left hfk hg
        exact hv.lists.disjoint hf hgS
      · rw [← hcount f (List.mem_append_left S hf) k hfk, ← hcount g (hmem g kg hg) kg hg]
        exact hranked f hf g hgS
  · intro r hen hok
    refine hex.step_defined hen ?_
    intro e he hene
    rcases hfollows.step hC hene (hok e he) with ⟨t, _, _, ht, _⟩
    exact ⟨t, ht⟩

/-- Three chunks for two fast places: the second and the third are sampled, and an address outside
does not count. -/
theorem window_keeps_frequent_three_chunks :
    ∃ s, Run ((Front.system policy .halfSlots).restrict ReportOk)
        (Front.init .halfSlots (windowInit 2 Setup.halfSlots.chunkSize 3))
        [.callback ⟨.alloc, 0, 0x18000, 0x18000⟩ 1 0x900, .sample 0x20000, .sample 0x28008,
          .sample 0x100000] s ∧
      KeepsFrequent 2 3 s ⟨[⟨0x18000, 0x18000⟩], [0x20000, 0x28008]⟩ := by
  rcases Run.of_exec ((Front.system policy .halfSlots).restrict ReportOk)
    (Front.init .halfSlots (windowInit 2 Setup.halfSlots.chunkSize 3))
    [.callback ⟨.alloc, 0, 0x18000, 0x18000⟩ 1 0x900, .sample 0x20000, .sample 0x28008,
      .sample 0x100000] (by decide) with ⟨s, _, hrun⟩
  exact ⟨s, hrun, window_keeps_frequent (by decide) (by decide) (by decide) hrun⟩

end Window
end Shambles
