import Mathlib.Algebra.Order.BigOperators.Group.Finset
import Mathlib.Order.Interval.Finset.Nat
import Shambles.Lru.Promotions
import Shambles.Lru.Unbind
import Shambles.Plugins.Config
import Shambles.Structures.ChunkInfo

/-!
# Budget — how much fast memory the LRU plugin takes

`SHAMBLES_FAST_MEM_SIZE` is meant as an amount of memory.  The plugin counts chunks, and it tags a
chunk without binding it when a release promotes the wrong descriptor, so tag and binding may
differ (`Placement`).  They differ in one direction only: a byte that was last bound to fast memory
lies in a chunk with the tag `fast`.  So the tracked bytes on fast memory are at most
`fastChunks * chunkSize`, which an adequate environment keeps below the amount it names.

The runs are those in which a region is as `addRegion` cuts it and overlaps no tracked one
(`AllocOk`), with any releases and samples.  The second condition is needed: over a region whose
release was missed, a new one would bind the bytes of the old a second time.
-/

namespace Shambles
namespace Lru

open AssocList Structures Plugins Strtol

/-! ## Bound fast, tagged fast -/

/-- A byte of the chunk of `n` is on fast memory only if `n` is tagged so. -/
def FastTagged (s : State) (n : NodePtr) : Prop :=
  ∀ a, (s.chunk n).chunk.Covers a → bindingAt s.trace a = some .fastmask → s.loc n = .fast

theorem Agree.fastTagged {s : State} {n : NodePtr} (h : Agree s n) : FastTagged s n := by
  intro a ha hfast
  rw [h a ha] at hfast
  cases hloc : s.loc n with
  | fast => rfl
  | slow => simp [hloc, policyOf] at hfast

theorem FastTagged.of_unchanged {s s' : State} {n : NodePtr} (h : FastTagged s n)
    (hchunk : s'.chunk n = s.chunk n) (hloc : s'.loc n = s.loc n)
    (htrace : ∀ a, (s.chunk n).chunk.Covers a → bindingAt s'.trace a = bindingAt s.trace a) :
    FastTagged s' n := by
  intro a ha hfast
  rw [hchunk] at ha
  rw [htrace a ha] at hfast
  rw [hloc]
  exact h a ha hfast

theorem fastTagged_of_fast {s : State} {n : NodePtr} (h : s.loc n = .fast) : FastTagged s n :=
  fun _ _ _ => h

/-! ### Allocation -/

section Place

variable {a : Nat} {x : NodePtr}

/-- The second loop binds the chunks of its nodes and tags these nodes. -/
theorem placeSlow_outside {ns : List NodePtr} : ∀ {s : State}, x ∉ ns →
    (∀ n ∈ ns, ¬ (s.chunk n).chunk.Covers a) →
      (placeSlow s ns).loc x = s.loc x ∧ bindingAt (placeSlow s ns).trace a = bindingAt s.trace a := by
  induction ns with
  | nil =>
      intro s _ _
      exact ⟨rfl, rfl⟩
  | cons n rest ih =>
      intro s hx hout
      rcases List.forall_mem_cons.1 hout with ⟨hn, hrest⟩
      have hxn : x ≠ n := fun heq => hx (by simp [heq])
      have hnext := ih (s := ((s.setLoc n .slow).enqLru n).emit (bindSlowAlloc (s.chunk n).chunk))
        (fun hmem => hx (List.mem_cons_of_mem n hmem)) hrest
      refine ⟨hnext.1.trans ?_, hnext.2.trans ?_⟩
      · simp [State.emit, State.enqLru, State.setLoc, hxn]
      · exact (bindingAt_bind s.trace (s.chunk n).chunk .slowmask .initSlow a).trans (if_neg hn)

theorem place_outside {ns : List NodePtr} : ∀ {s : State}, x ∉ ns →
    (∀ n ∈ ns, ¬ (s.chunk n).chunk.Covers a) →
      (placeSlow (placeFast s ns).1 (placeFast s ns).2).loc x = s.loc x ∧
        bindingAt (placeSlow (placeFast s ns).1 (placeFast s ns).2).trace a =
          bindingAt s.trace a := by
  induction ns with
  | nil =>
      intro s _ _
      exact ⟨rfl, rfl⟩
  | cons n rest ih =>
      intro s hx hout
      by_cases hfree : s.freeFastChunks = 0
      · simpa [placeFast, hfree] using placeSlow_outside hx hout
      · rcases List.forall_mem_cons.1 hout with ⟨hn, hrest⟩
        have hxn : x ≠ n := fun heq => hx (by simp [heq])
        simp only [placeFast, ne_eq, hfree, not_false_eq_true, if_true]
        have hnext := ih (s := { ((s.setLoc n .fast).enqMru n).emit
          (bindFastAlloc (s.chunk n).chunk) with freeFastChunks := s.freeFastChunks - 1 })
          (fun hmem => hx (List.mem_cons_of_mem n hmem)) hrest
        refine ⟨hnext.1.trans ?_, hnext.2.trans ?_⟩
        · simp [State.emit, State.enqMru, State.setLoc, hxn]
        · exact (bindingAt_bind s.trace (s.chunk n).chunk .fastmask .initFast a).trans (if_neg hn)

end Place

/-! ### Release -/

/-- One iteration: a promoted node is tagged fast, and only its chunk may be bound. -/
theorem freeChunk_fastTagged {s : State} {n x : NodePtr} {region : ShamblesRegion}
    (hx : FastTagged s x)
    (hapart : ∀ p, (s.dqMru n).lru = some p → x ≠ p →
      Apart (s.chunk x).chunk (s.chunk p).chunk) :
    FastTagged (freeChunk region s n) x := by
  rcases freeChunk_cases region s n with ⟨hchunk, ⟨-, hloc, htrace⟩ | ⟨p, hp, hloc, htrace⟩⟩
  · refine hx.of_unchanged (by rw [hchunk]) (by rw [hloc]) ?_
    intro a _
    rw [htrace]
  · by_cases hxp : x = p
    · exact fastTagged_of_fast (by simp [hloc, hxp])
    · refine hx.of_unchanged (by rw [hchunk]) (by simp [hloc, hxp]) ?_
      intro a ha
      have hout : ¬ (s.chunk p).chunk.Covers a := by
        intro hcover
        exact hapart p (promotion_eq_some.1 hp).2 hxp a ⟨ha, hcover⟩
      rw [htrace]
      split
      · exact (bindingAt_bind s.trace (s.chunk p).chunk .fastmask .slow2fast a).trans (if_neg hout)
      · rfl

theorem Represents.freeChunks_fastTagged {C : Nat} (region : ShamblesRegion) {x : NodePtr}
    {ns : List NodePtr} :
    ∀ {s : State} {m l : List NodePtr}, Represents C s m l → ns.Nodup → (∀ n ∈ ns, n ∈ m ++ l) →
      (∀ y ∈ m ++ l, x ≠ y → Apart (s.chunk x).chunk (s.chunk y).chunk) → FastTagged s x →
      FastTagged (ns.foldl (freeChunk region) s) x := by
  induction ns with
  | nil =>
      intro s m l _ _ _ _ hx
      exact hx
  | cons n rest ih =>
      intro s m l h hnd hmem hapart hx
      rcases List.nodup_cons.1 hnd with ⟨hnrest, hrest⟩
      rcases h.freeChunk_spec region (hmem n (by simp)) with ⟨m₁, l₁, h₁, heq⟩
      refine ih h₁ hrest ?_ ?_ ?_
      · intro y hy
        have hyn : y ≠ n := fun hyn => hnrest (hyn ▸ hy)
        rw [heq]
        exact (List.mem_erase_of_ne hyn).2 (hmem y (List.mem_cons_of_mem n hy))
      · intro y hy hxy
        rw [heq] at hy
        rw [(freeChunk_cases region s n).1]
        exact hapart y (List.mem_of_mem_erase hy) hxy
      · refine freeChunk_fastTagged hx ?_
        intro p hp hxp
        exact hapart p (List.mem_append_right _ (h.mem_of_lru_head hp)) hxp

/-! ### Samples -/

theorem sampleSlow_fastTagged {s : State} {addr : Nat} {n v x : NodePtr} (hx : FastTagged s x)
    (hnv : n ≠ v) (hapart : x ≠ n → Apart (s.chunk x).chunk (s.chunk n).chunk) :
    FastTagged (sampleSlow s addr n v) x := by
  by_cases hxn : x = n
  · refine fastTagged_of_fast ?_
    subst hxn
    simp [sampleSlow, State.pushMru, State.setLoc, hnv]
  · intro a ha hfast
    have hout : ¬ (s.chunk n).chunk.Covers a := fun hn => hapart hxn a ⟨ha, hn⟩
    have hswap := bindingAt_swap (s.trace ++ [.logSample addr ⟨true, false⟩]) (s.chunk n).chunk
      (s.chunk v).chunk a
    rw [bindingAt_logSample, if_neg hout] at hswap
    have hbinding : bindingAt (sampleSlow s addr n v).trace a =
        if (s.chunk v).chunk.Covers a then some .slowmask else bindingAt s.trace a := hswap
    rw [hbinding] at hfast
    -- a byte of the evicted chunk has just been bound to slow memory
    by_cases hv : (s.chunk v).chunk.Covers a
    · simp [hv] at hfast
    · have hxv : x ≠ v := fun heq => hv (heq ▸ ha)
      rw [if_neg hv] at hfast
      have hold : s.loc x = .fast := hx a ha hfast
      simpa [sampleSlow, State.pushMru, State.pushLru, State.setLoc, State.emit, State.dqMru, hxv,
        hxn] using hold

/-! ## Whole runs -/

/-- The fast bytes lie in chunks tagged so, and no chunk is larger than the chunk size. -/
structure Budgeted (C chunkSize : Nat) (s : State) (L : List NodePtr) : Prop where
  backed : Backed C s L
  tagged : ∀ n, LiveNode s.regions n → FastTagged s n
  capped : ∀ p region, s.regions.lookup p = some region → ∀ c ∈ region.chunks, c.size ≤ chunkSize

namespace Budgeted

variable {C chunkSize : Nat} {s s' : State} {L : List NodePtr} {p : RegionPtr}
  {region : ShamblesRegion}

theorem init (hmax : C ≤ INT_MAX) : Budgeted C chunkSize (lruInit C) [] := by
  refine ⟨Backed.init hmax, ?_, ?_⟩
  · rintro n ⟨r, hr, _⟩
    cases hr
  · intro q r hr
    cases hr

/-- The new nodes agree with their bindings, and the old ones are not touched. -/
theorem alloc (h : Budgeted C chunkSize s L)
    (hbacked : Backed C (allocRegion s p region) (L ++ nodesOf p region))
    (hfresh : s.regions.lookup p = none) (hcap : ∀ c ∈ region.chunks, c.size ≤ chunkSize) :
    Budgeted C chunkSize (allocRegion s p region) (L ++ nodesOf p region) := by
  have hchunk := allocRegion_chunk s p region
  have hnew : ∀ x ∈ nodesOf p region, LiveNode (allocRegion s p region).regions x := by
    intro x hx
    rcases mem_nodesOf.1 hx with ⟨rfl, hindex⟩
    exact ⟨region, by simp [allocRegion_regions], hindex⟩
  have hplacing : Placing (initNodes { s with regions := (p, region) :: s.regions } p region)
      (fun _ => False) (nodesOf p region) := by
    refine ⟨fun _ hx => hx.elim, nodup_nodesOf p region, fun _ hx => hx.elim, ?_⟩
    intro x y hx hy hxy
    rw [← hchunk]
    exact hbacked.layout.apart_nodes (hnew x (hx.resolve_left id)) (hnew y hy) hxy
  refine ⟨hbacked, ?_, ?_⟩
  · intro x hlive
    by_cases hx : x ∈ nodesOf p region
    · exact (hplacing.place x (Or.inr hx)).fastTagged
    · rcases hlive with ⟨r, hr, hindex⟩
      have hlive : LiveNode (allocRegion s p region).regions x := ⟨r, hr, hindex⟩
      rw [allocRegion_regions, lookup_cons_eq] at hr
      have hxp : x.region ≠ p := by
        intro hxp
        rw [if_pos hxp] at hr
        obtain rfl := Option.some.inj hr
        exact hx (mem_nodesOf.2 ⟨hxp, hindex⟩)
      rw [if_neg hxp] at hr
      have hsame : (allocRegion s p region).chunk x = s.chunk x := by simp [hchunk, initNodes, hxp]
      intro a ha hfast
      have hkeep := place_outside
        (s := initNodes { s with regions := (p, region) :: s.regions } p region) (a := a) hx ?_
      · rw [hsame] at ha
        exact hkeep.1.trans (h.tagged x ⟨r, hr, hindex⟩ a ha (hkeep.2.symm.trans hfast))
      · intro n hn hna
        rw [← hchunk] at hna
        exact hbacked.layout.apart_nodes hlive (hnew n hn) (fun heq => hx (heq ▸ hn)) a ⟨ha, hna⟩
  · intro q r hr
    rw [allocRegion_regions, lookup_cons_eq] at hr
    by_cases hq : q = p
    · rw [if_pos hq] at hr
      obtain rfl := Option.some.inj hr
      exact hcap
    · rw [if_neg hq] at hr
      exact h.capped q r hr

theorem free (h : Budgeted C chunkSize s L) (hlive : s.regions.lookup p = some region) :
    Budgeted C chunkSize (freeRegion s p region) (L.filter fun n => n.region ≠ p) := by
  refine ⟨h.backed.free hlive, ?_, ?_⟩
  · rintro x ⟨r, hr, hindex⟩
    rcases lookup_freeRegion hr with ⟨hxp, hr⟩
    have hx : LiveNode s.regions x := ⟨r, hr, hindex⟩
    have hne : x ≠ ⟨p, 0⟩ := fun heq => hxp (by rw [heq])
    rcases h.backed.refines.rep with ⟨m, l, hrep, rfl⟩
    refine (hrep.emit (unbind region)).freeChunks_fastTagged region (nodup_nodesOf p region)
      (h.backed.refines.mem_of_nodesOf hlive) ?_ ?_
    · intro y hy hxy
      exact h.backed.layout.apart_nodes hx ((h.backed.refines.live y).1 hy) hxy
    · refine (h.tagged x hx).of_unchanged rfl rfl ?_
      intro a ha
      exact h.backed.layout.bindingAt_unbind hlive hx hne ha
  · intro q r hr
    exact h.capped q r (lookup_freeRegion hr).2

theorem sample (h : Budgeted C chunkSize s L) {addr : Nat} {chunk : Option NodePtr}
    {L' : List NodePtr} (hbacked : Backed C s' L') (hn : ∀ n ∈ chunk, LiveNode s.regions n)
    (hs' : handleSample s addr chunk = some s') : Budgeted C chunkSize s' L' := by
  have hregions := handleSample_regions hs'
  refine ⟨hbacked, ?_, ?_⟩
  · intro x hx
    rw [hregions] at hx
    have hlog : ∀ flags, FastTagged (s.emit [.logSample addr flags]) x := by
      intro flags
      refine (h.tagged x hx).of_unchanged rfl rfl ?_
      intro a _
      exact bindingAt_logSample s.trace addr flags a
    cases chunk with
    | none =>
        obtain rfl : s.emit [.logSample addr ⟨false, false⟩] = s' := Option.some.inj hs'
        exact hlog ⟨false, false⟩
    | some n =>
        have hlive : LiveNode s.regions n := hn n rfl
        have hC := h.backed.refines.capacity_pos hlive hs'
        rcases h.backed.refines.rep with ⟨m, l, hrep, rfl⟩
        rcases List.mem_append.1 ((h.backed.refines.live n).2 hlive) with hm | hl
        · have hloc := hrep.loc_fast n hm
          obtain rfl : sampleFast s addr n = s' := by simpa [handleSample, hloc] using hs'
          exact hlog ⟨true, true⟩
        · have hloc := hrep.loc_slow n hl
          rcases hrep.slow_split hC hl with ⟨m', v, A, B, head, rfl, rfl, hhead, hprev⟩
          obtain rfl : sampleSlow (s.dqLru n) addr n v = s' := by
            simpa [handleSample, hloc, hhead, hprev] using hs'
          have hnv : n ≠ v := by
            rintro rfl
            simp [hrep.loc_fast n (by simp)] at hloc
          refine sampleSlow_fastTagged (h.tagged x hx) hnv ?_
          intro hxn
          exact h.backed.layout.apart_nodes hx hlive hxn
  · intro q r hr
    rw [hregions] at hr
    exact h.capped q r hr

theorem step (h : Budgeted C chunkSize s L) (hsize : 0 < chunkSize) {e : Event}
    (he : Enabled s.regions e) (hok : AllocOk chunkSize s e) (hs' : Lru.step s e = some s') :
    Budgeted C chunkSize s' (recencyStep L e) := by
  have hbacked := h.backed.step hsize he hok hs'
  cases e with
  | alloc p region =>
      obtain rfl : allocRegion s p region = s' := Option.some.inj hs'
      exact h.alloc hbacked he.1 fun c hc => (hok.1.bounds hsize c hc).2
  | free p =>
      rcases of_step_free hs' with ⟨region, hregion, rfl⟩
      exact h.free hregion
  | sample addr chunk =>
      refine h.sample hbacked ?_ hs'
      rintro n rfl
      exact he

theorem run (hmax : C ≤ INT_MAX) (hsize : 0 < chunkSize) {es : List Event}
    (h : Run (system.restrict (AllocOk chunkSize)) (lruInit C) es s) :
    Budgeted C chunkSize s (recency es) := by
  refine Run.invariant (P := fun es s => Budgeted C chunkSize s (recency es)) (init hmax) ?_ h
  intro es s e s' hs hen hst
  simpa [recency_snoc] using hs.step hsize hen.1 hen.2 hst

end Budgeted

/-! ## Counting bytes -/

/-- The bytes of a chunk. -/
def bytesOf (c : ShamblesChunk) : Finset Nat :=
  Finset.Ico c.start (c.start + c.size)

theorem mem_bytesOf {c : ShamblesChunk} {a : Nat} : a ∈ bytesOf c ↔ c.Covers a :=
  Finset.mem_Ico

/-- The bytes of the tracked regions that were last bound to fast memory. -/
def fastBytes (s : State) : Finset Nat :=
  (s.regions.toFinset.biUnion fun r => Finset.Ico r.2.start (r.2.start + r.2.size)).filter
    fun a => bindingAt s.trace a = some .fastmask

namespace Budgeted

variable {C chunkSize : Nat} {s : State} {L : List NodePtr}

/-- Every fast byte lies in the chunk of a node of the fast list. -/
theorem fastBytes_subset (h : Budgeted C chunkSize s L) {m l : List NodePtr}
    (hrep : Represents C s m l) (hL : L = m ++ l) :
    fastBytes s ⊆ m.toFinset.biUnion fun n => bytesOf (s.chunk n).chunk := by
  intro a ha
  rcases Finset.mem_filter.1 ha with ⟨hin, hfast⟩
  rcases Finset.mem_biUnion.1 hin with ⟨⟨p, region⟩, hmem, hrange⟩
  rcases Finset.mem_Ico.1 hrange with ⟨hle, hlt⟩
  have hlookup : s.regions.lookup p = some region :=
    lookup_of_mem h.backed.layout.keys (List.mem_toFinset.1 hmem)
  -- the byte lies in one of the chunks of its region
  obtain ⟨i, hholds⟩ : ∃ i, HoldsAt region a i :=
    ⟨_, (h.backed.layout.tiles p region hlookup).holdsAt_chunkIndexNU hle hlt⟩
  have hlive : LiveNode s.regions ⟨p, i⟩ := ⟨region, hlookup, hholds.lt⟩
  rcases hholds.1 with ⟨c, hc, hcovers⟩
  have hchunk : (s.chunk ⟨p, i⟩).chunk = c := by
    rw [h.backed.layout.chunk_eq ⟨p, i⟩ region hlookup c hc]
  rw [← hchunk] at hcovers
  -- which is tagged fast, hence in the fast list
  have hloc := h.tagged _ hlive a hcovers hfast
  have hlist := (h.backed.refines.live _).2 hlive
  rw [hL] at hlist
  have hm := (hrep.mem_fast_iff hlist).1 hloc
  exact Finset.mem_biUnion.2 ⟨_, List.mem_toFinset.2 hm, mem_bytesOf.2 hcovers⟩

theorem chunk_size_le (h : Budgeted C chunkSize s L) {n : NodePtr} (hn : LiveNode s.regions n) :
    (s.chunk n).chunk.size ≤ chunkSize := by
  rcases hn with ⟨region, hregion, hindex⟩
  rw [h.backed.layout.chunk_eq n region hregion _ (List.getElem?_eq_getElem hindex)]
  exact h.capped _ region hregion _ (List.getElem_mem hindex)

theorem card_fastBytes (h : Budgeted C chunkSize s L) : (fastBytes s).card ≤ chunkSize * C := by
  rcases h.backed.refines.rep with ⟨m, l, hrep, rfl⟩
  have hlive : ∀ n ∈ m.toFinset, LiveNode s.regions n := by
    intro n hn
    exact (h.backed.refines.live n).1 (List.mem_append_left l (List.mem_toFinset.1 hn))
  have hlen : m.toFinset.card ≤ C := by
    have hdedup := m.toFinset_card_le
    have hfull := hrep.full
    omega
  calc
    (fastBytes s).card
        ≤ (m.toFinset.biUnion fun n => bytesOf (s.chunk n).chunk).card :=
          Finset.card_le_card (h.fastBytes_subset hrep rfl)
    _ ≤ m.toFinset.card * chunkSize := by
          refine Finset.card_biUnion_le_card_mul _ _ _ ?_
          intro n hn
          simpa [bytesOf] using h.chunk_size_le (hlive n hn)
    _ ≤ chunkSize * C := by
          rw [Nat.mul_comm]
          exact Nat.mul_le_mul_left chunkSize hlen

end Budgeted

/-! ## The amount the environment names -/

/-- In every run of the plugin with an adequate environment that names an amount of fast memory and
one of chunk size and chunk count, the tracked bytes on fast memory stay within that amount, as long
as new regions overlap no tracked one. -/
theorem fast_bytes_within_budget {m : Machine} {env : Environment} {config : ShamblesPluginConfig}
    (hadequate : Adequate m env) (hconfig : shamblesPluginConfigInit m env = some config)
    (hmax : config.fastChunks ≤ INT_MAX) {value : String}
    (hvalue : env "SHAMBLES_FAST_MEM_SIZE" = some value) (hpos : 0 < strtol value)
    (hone : Xor (Positive env "SHAMBLES_CHUNK_SIZE") (Positive env "SHAMBLES_FAST_MEM_CHUNKS"))
    {es : List Event} {s : State}
    (h : Run (system.restrict (AllocOk config.chunkSize)) (lruInit config.fastChunks) es s) :
    ((fastBytes s).card : Int) ≤ strtol value := by
  rcases configInit_eq hconfig with ⟨_, rfl⟩
  have hsize : 0 < readChunkSize env := (chunkSize_pos_iff env).2 hadequate.chunkSize
  have hcard := (Budgeted.run hmax hsize h).card_fastBytes
  have hbudget := (budget_iff env).2 hadequate.unset value hvalue hpos hone
  calc
    ((fastBytes s).card : Int)
        ≤ ((readChunkSize env * readFastChunks env (readChunkSize env) : Nat) : Int) := by
          exact_mod_cast hcard
    _ ≤ strtol value := hbudget

/-- Two chunks fit.  The release of the first region tags the third chunk fast and does not bind it,
because its descriptor lies before those of the region. -/
theorem fast_bytes_within_budget_release :
    ∃ s, Run (system.restrict (AllocOk 0x10000)) (lruInit 2)
        [.alloc 7 ⟨0x18000, [⟨0x18000, 0x10000⟩], 0x800⟩,
          .alloc 8 ⟨0x38000, chunkTable 0x10000 0x38000 0x20000, 0x400⟩, .free 7] s ∧
      s.loc ⟨8, 1⟩ = .fast ∧ ((fastBytes s).card : Int) ≤ 0x28000 := by
  let env : Environment :=
    .of [("SHAMBLES_CHUNK_SIZE", "0x10000"), ("SHAMBLES_FAST_MEM_SIZE", "0x28000")]
  have hadequate : Adequate (Machine.upTo 1) env := by
    refine ⟨by decide, ?_, ?_, ?_, ?_, ?_⟩
    · intro mask hmask
      cases hmask
    · intro hnone
      cases hnone
    · intro chunks hchunks
      cases hchunks
    · rintro - size hsize -
      obtain rfl : 0x28000 = size := Option.some.inj hsize
      decide
    · intro _
      refine ⟨fun _ _ => rfl, ?_⟩
      rintro ⟨value, hvalue, _⟩
      cases hvalue
  rcases Run.of_exec_any (system.restrict (AllocOk 0x10000)) (lruInit 2)
    [.alloc 7 ⟨0x18000, [⟨0x18000, 0x10000⟩], 0x800⟩,
      .alloc 8 ⟨0x38000, chunkTable 0x10000 0x38000 0x20000, 0x400⟩, .free 7]
    (fun s => s.loc ⟨8, 1⟩ = .fast) (by decide) with ⟨s, hrun, hloc⟩
  have hconfig : shamblesPluginConfigInit (Machine.upTo 1) env =
      some ⟨0x10000, 0x10000, 2, 3, 15, 0⟩ := by decide
  have hvalue : env "SHAMBLES_FAST_MEM_SIZE" = some "0x28000" := rfl
  refine ⟨s, hrun, hloc, ?_⟩
  refine fast_bytes_within_budget hadequate hconfig (by decide) hvalue (by decide) ?_ hrun
  refine Or.inl ⟨⟨"0x10000", rfl, by decide⟩, ?_⟩
  rintro ⟨value, hchunks, _⟩
  cases hchunks

end Lru
end Shambles
