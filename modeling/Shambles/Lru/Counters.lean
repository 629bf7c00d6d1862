import Shambles.Lru.Promotions

/-!
# Counters — what the counters of the LRU plugin say about a run

The hooks are called in `migration.c` and in `handleSample`; which of them and how often is decided
in `lru.c`.  `Books` ties their calls to the events of a run:

- one sample, one call of `logSample`;
- one miss, one migration in each direction;
- one chunk of a new region, one initial placement;
- one promotion on release, one migration to fast memory, unless the comparison of descriptors
  (`BoundOnFree`) is in the way.  The promotions that were not logged stand on the other side of the
  equation.

`counters_account` reads the counters off the books.  `migrationBytes` is not a sum of sizes: it is
the number of migrations.
-/

namespace Shambles
namespace Lru

open AssocList Structures Plugins

/-! ## Events -/

def isSample : Event → Bool
  | .sample _ _ => true
  | _ => false

def newChunks : Event → List ShamblesChunk
  | .alloc _ region => region.chunks
  | _ => []

/-- The chunks ever tracked. -/
def trackedChunks (es : List Event) : List ShamblesChunk :=
  es.flatMap newChunks

@[simp] theorem trackedChunks_snoc (es : List Event) (e : Event) :
    trackedChunks (es ++ [e]) = trackedChunks es ++ newChunks e := by
  simp [trackedChunks]

/-! ## The hook calls of one event -/

def initHook (dir : Direction) (c : ShamblesChunk) : HookCall :=
  .migration dir c.size

theorem placeSlow_hooks (ns : List NodePtr) : ∀ s : State,
    hooks (placeSlow s ns).trace = hooks s.trace ++
      (ns.map fun n => (s.chunk n).chunk).map (initHook .initSlow) := by
  induction ns with
  | nil =>
      intro s
      simp [placeSlow]
  | cons n rest ih =>
      intro s
      simp only [placeSlow, ih]
      simp [State.emit, State.enqLru, State.setLoc, initHook]

/-- Both loops: a first part of the chunks is placed in fast memory, the rest in slow memory. -/
theorem place_hooks (ns : List NodePtr) : ∀ s : State, ∃ A B,
    A ++ B = ns.map (fun n => (s.chunk n).chunk) ∧
      hooks (placeSlow (placeFast s ns).1 (placeFast s ns).2).trace =
        hooks s.trace ++ A.map (initHook .initFast) ++ B.map (initHook .initSlow) := by
  induction ns with
  | nil =>
      intro s
      exact ⟨[], [], by simp, by simp [placeFast, placeSlow]⟩
  | cons n rest ih =>
      intro s
      by_cases hfree : s.freeFastChunks = 0
      · refine ⟨[], (n :: rest).map fun n => (s.chunk n).chunk, by simp, ?_⟩
        simpa [placeFast, hfree] using placeSlow_hooks (n :: rest) s
      · rcases ih { ((s.setLoc n .fast).enqMru n).emit (bindFastAlloc (s.chunk n).chunk) with
          freeFastChunks := s.freeFastChunks - 1 } with ⟨A, B, hsplit, hhooks⟩
        refine ⟨(s.chunk n).chunk :: A, B, congrArg (List.cons (s.chunk n).chunk) hsplit, ?_⟩
        simp only [placeFast, ne_eq, hfree, not_false_eq_true, if_true]
        refine hhooks.trans ?_
        simp [State.emit, State.enqMru, State.setLoc, initHook]

/-- The first loop of an allocation gives the nodes the chunks of the region, in order. -/
theorem map_initNodes_chunk (s : State) (p : RegionPtr) (region : ShamblesRegion) :
    (nodesOf p region).map (fun n => ((initNodes s p region).chunk n).chunk) = region.chunks := by
  refine List.ext_getElem (by simp [nodesOf, ShamblesRegion.nChunks]) ?_
  intro i _ hi
  simp [nodesOf, initNodes, hi]

theorem allocRegion_hooks (s : State) (p : RegionPtr) (region : ShamblesRegion) :
    ∃ A B, A ++ B = region.chunks ∧
      hooks (allocRegion s p region).trace =
        hooks s.trace ++ A.map (initHook .initFast) ++ B.map (initHook .initSlow) := by
  rcases place_hooks (nodesOf p region)
    (initNodes { s with regions := (p, region) :: s.regions } p region) with ⟨A, B, hsplit, hhooks⟩
  rw [map_initNodes_chunk] at hsplit
  exact ⟨A, B, hsplit, hhooks⟩

/-- The hook calls of a sample: a hit, a miss with its two migrations, or a small allocation. -/
theorem handleSample_hooks {s s' : State} {addr : Nat} {chunk : Option NodePtr}
    (h : handleSample s addr chunk = some s') :
    hooks s'.trace = hooks s.trace ++ [.sample ⟨true, true⟩] ∨
      hooks s'.trace = hooks s.trace ++ [.sample ⟨false, false⟩] ∨
      ∃ n head, chunk = some n ∧ s.loc n ≠ .fast ∧ (s.dqLru n).mru = some head ∧
        hooks s'.trace = hooks s.trace ++
          [.sample ⟨true, false⟩, .migration .slow2fast (s.chunk n).chunk.size,
            .migration .fast2slow (s.chunk ((s.dqLru n).links.prev head)).chunk.size] := by
  cases chunk with
  | none =>
      obtain rfl := Option.some.inj h
      exact Or.inr (Or.inl (by simp [State.emit]))
  | some n =>
      simp only [handleSample] at h
      split at h
      · obtain rfl := Option.some.inj h
        exact Or.inl (by simp [sampleFast, State.emit, State.pushMru, State.dqMru])
      · rename_i hloc
        split at h
        · cases h
        · rename_i head hhead
          obtain rfl := Option.some.inj h
          refine Or.inr (Or.inr ⟨n, head, rfl, hloc, hhead, ?_⟩)
          have htrace : (sampleSlow (s.dqLru n) addr n ((s.dqLru n).links.prev head)).trace =
              s.trace ++ [.logSample addr ⟨true, false⟩] ++
                swap (s.chunk n).chunk (s.chunk ((s.dqLru n).links.prev head)).chunk := rfl
          rw [htrace, hooks_append, hooks_append, List.append_assoc]
          rfl

/-- What a miss evicts is the chunk of a live node. -/
theorem Refines.victim_live {C : Nat} {s : State} {L : List NodePtr} (h : Refines C s L)
    (hC : 1 ≤ C) {n head : NodePtr} (hn : LiveNode s.regions n) (hloc : s.loc n ≠ .fast)
    (hhead : (s.dqLru n).mru = some head) :
    LiveNode s.regions ((s.dqLru n).links.prev head) := by
  rcases h.rep with ⟨m, l, hrep, rfl⟩
  have hslow : n ∈ l := by
    rcases List.mem_append.1 ((h.live n).2 hn) with hm | hl
    · exact absurd (hrep.loc_fast n hm) hloc
    · exact hl
  rcases hrep.slow_split hC hslow with ⟨m', v, A, B, head', rfl, rfl, hhead', hprev⟩
  obtain rfl : head' = head := Option.some.inj (hhead'.symm.trans hhead)
  rw [hprev]
  exact (h.live v).1 (by simp)

/-! ## The books of a run -/

/-- The calls in the trace that satisfy `p`. -/
def calls (s : State) (p : HookCall → Bool) : Nat :=
  (hooks s.trace).countP p

structure Books (C : Nat) (es : List Event) (s : State) : Prop where
  refines : Refines C s (recency es)
  described : Described s
  samples : calls s HookCall.isHit + calls s HookCall.isMiss + calls s HookCall.isSmall =
    es.countP isSample
  evictions : calls s (HookCall.migrates .fast2slow) = calls s HookCall.isMiss
  /-- Every chunk is logged once when it comes. -/
  initial : (loggedSizes .initFast (hooks s.trace) ++ loggedSizes .initSlow (hooks s.trace)).Perm
    ((trackedChunks es).map ShamblesChunk.size)
  promoted : calls s (HookCall.migrates .slow2fast) +
      (system.collect unloggedLive (lruInit C) es).length =
    calls s HookCall.isMiss + (system.collect promotedLive (lruInit C) es).length
  /-- Whatever is logged later is a chunk that came. -/
  known : ∀ dir, ∀ size ∈ loggedSizes dir (hooks s.trace), ∃ c ∈ trackedChunks es, c.size = size
  live : ∀ p region, s.regions.lookup p = some region → region.chunks ⊆ trackedChunks es

namespace Books

variable {C : Nat} {es : List Event} {s s' : State}

theorem init (hmax : C ≤ INT_MAX) : Books C [] (lruInit C) :=
  { refines := Refines.init hmax
    described := Described.init C
    samples := rfl
    evictions := rfl
    initial := List.Perm.refl []
    promoted := rfl
    known := by
      intro dir size hsize
      cases hsize
    live := by
      intro p region hregion
      cases hregion }

/-- The chunk of a live node has been tracked. -/
theorem chunk_mem (h : Books C es s) {n : NodePtr} (hn : LiveNode s.regions n) :
    (s.chunk n).chunk ∈ trackedChunks es := by
  rcases hn with ⟨region, hregion, hi⟩
  exact h.live _ _ hregion (h.described.chunk_mem hregion hi)

/-- One more event, whose hook calls are `added`. -/
theorem extend (h : Books C es s) (hrun : Run system (lruInit C) es s) {e : Event}
    (he : Enabled s.regions e) (hs' : step s e = some s') {added : List HookCall}
    (hadded : hooks s'.trace = hooks s.trace ++ added)
    (hsamples : added.countP HookCall.isHit + added.countP HookCall.isMiss +
      added.countP HookCall.isSmall = [e].countP isSample)
    (hevictions : added.countP (HookCall.migrates .fast2slow) = added.countP HookCall.isMiss)
    (hinitial : (loggedSizes .initFast added ++ loggedSizes .initSlow added).Perm
      ((newChunks e).map ShamblesChunk.size))
    (hpromoted : added.countP (HookCall.migrates .slow2fast) + (unloggedLive s e).length =
      added.countP HookCall.isMiss + (promotedLive s e).length)
    (hknown : ∀ dir, ∀ size ∈ loggedSizes dir added,
      ∃ c ∈ trackedChunks es ++ newChunks e, c.size = size)
    (hlive : ∀ p region, s'.regions.lookup p = some region →
      region.chunks ⊆ trackedChunks es ++ newChunks e) :
    Books C (es ++ [e]) s' where
  refines := by
    rw [recency_snoc]
    exact h.refines.step_of_some he hs'
  described := h.described.step he hs'
  samples := by
    have hbefore := h.samples
    simp only [calls, hadded, List.countP_append] at hbefore ⊢
    omega
  evictions := by
    have hbefore := h.evictions
    simp only [calls, hadded, List.countP_append] at hbefore ⊢
    omega
  initial := by
    rw [hadded, loggedSizes_append, loggedSizes_append, trackedChunks_snoc, List.map_append]
    -- the new sizes move behind the old ones
    refine List.Perm.trans ?_ (h.initial.append hinitial)
    simp only [List.append_assoc]
    exact (List.perm_append_comm_assoc _ _ _).append_left _
  promoted := by
    have hbefore := h.promoted
    rw [hrun.collect_snoc, hrun.collect_snoc]
    simp only [calls, hadded, List.countP_append, List.length_append] at hbefore ⊢
    omega
  known := by
    intro dir size hsize
    rw [hadded, loggedSizes_append] at hsize
    rw [trackedChunks_snoc]
    rcases List.mem_append.1 hsize with hold | hnew
    · rcases h.known dir size hold with ⟨c, hc, hcsize⟩
      exact ⟨c, List.mem_append_left _ hc, hcsize⟩
    · exact hknown dir size hnew
  live := by
    intro p region hregion
    rw [trackedChunks_snoc]
    exact hlive p region hregion

/-- The hook calls of a list of chunks, one migration each. -/
theorem loggedSizes_map (dir d : Direction) (cs : List ShamblesChunk) :
    loggedSizes dir (cs.map (initHook d)) =
      if d = dir then cs.map ShamblesChunk.size else [] := by
  by_cases hd : d = dir <;> simp [loggedSizes, initHook, hd, List.filterMap_map, Function.comp_def]

theorem countP_map_migrates (dir d : Direction) (cs : List ShamblesChunk) :
    (cs.map (initHook d)).countP (HookCall.migrates dir) = if d = dir then cs.length else 0 := by
  rw [← length_loggedSizes, loggedSizes_map]
  split <;> simp

/-- No migration is counted as a sample. -/
theorem countP_map_initHook (d : Direction) (cs : List ShamblesChunk) :
    (cs.map (initHook d)).countP HookCall.isHit = 0 ∧
      (cs.map (initHook d)).countP HookCall.isMiss = 0 ∧
      (cs.map (initHook d)).countP HookCall.isSmall = 0 := by
  simp [List.countP_eq_zero, initHook, HookCall.isHit, HookCall.isMiss, HookCall.isSmall]

theorem alloc (h : Books C es s) (hrun : Run system (lruInit C) es s) {p : RegionPtr}
    {region : ShamblesRegion} (he : Enabled s.regions (.alloc p region)) :
    Books C (es ++ [.alloc p region]) (allocRegion s p region) := by
  -- `A` are the chunks that find a place in fast memory, `B` the others.
  rcases allocRegion_hooks s p region with ⟨A, B, hsplit, hhooks⟩
  rw [List.append_assoc] at hhooks
  refine h.extend hrun he rfl hhooks ?_ ?_ ?_ ?_ ?_ ?_
  · simp only [List.countP_append, countP_map_initHook]
    rfl
  · simp only [List.countP_append, countP_map_initHook, countP_map_migrates]
    rfl
  · simp [loggedSizes_map, newChunks, ← hsplit]
  · simp only [List.countP_append, countP_map_initHook, countP_map_migrates]
    rfl
  · intro dir size hsize
    have hmem : size ∈ region.chunks.map ShamblesChunk.size := by
      rw [loggedSizes_append, loggedSizes_map, loggedSizes_map] at hsize
      rw [← hsplit, List.map_append]
      refine List.append_subset.2 ⟨?_, ?_⟩ hsize <;> split <;> simp
    rcases List.mem_map.1 hmem with ⟨c, hc, hcsize⟩
    exact ⟨c, List.mem_append_right _ hc, hcsize⟩
  · intro q r hr
    rw [allocRegion_regions, lookup_cons_eq] at hr
    by_cases hqp : q = p
    · obtain rfl : region = r := by simpa [hqp] using hr
      exact List.subset_append_right _ _
    · simp only [hqp, if_false] at hr
      exact List.subset_append_of_subset_left _ (h.live q r hr)

theorem free (h : Books C es s) (hrun : Run system (lruInit C) es s) {p : RegionPtr}
    {region : ShamblesRegion} (hlive : s.regions.lookup p = some region) :
    Books C (es ++ [.free p]) (freeRegion s p region) := by
  rcases freeRegion_promotions h.refines hlive with ⟨_, hpromoted, _, hhooks⟩
  have he : Enabled s.regions (.free p) := by simp [Enabled, hlive]
  have hs' : step s (.free p) = some (freeRegion s p region) := by simp [step, hlive]
  have hcount := logged_add_unlogged h.refines h.described hlive
  -- The logged promotions as migrations of chunks, as in `alloc`.
  have hmap : ((promotedBy s p region).filter fun x => BoundOnFree region s x).map
      (promotionHook s) = (((promotedBy s p region).filter fun x => BoundOnFree region s x).map
        fun x => (s.chunk x).chunk).map (initHook .slow2fast) := by
    simp [initHook, promotionHook, Function.comp_def]
  rw [hmap] at hhooks
  refine h.extend hrun he hs' hhooks ?_ ?_ ?_ ?_ ?_ ?_
  · simp only [countP_map_initHook]
    rfl
  · simp only [countP_map_initHook, countP_map_migrates]
    rfl
  · simp only [loggedSizes_map]
    exact .refl _
  · simpa only [countP_map_initHook, countP_map_migrates, if_true, List.length_map, Nat.zero_add]
      using hcount
  · intro dir size hsize
    rw [loggedSizes_map] at hsize
    split at hsize
    · simp only [List.mem_map, List.mem_filter] at hsize
      rcases hsize with ⟨c, ⟨x, ⟨hx, -⟩, rfl⟩, hcsize⟩
      exact ⟨_, List.mem_append_left _ (h.chunk_mem (hpromoted x hx).1), hcsize⟩
    · cases hsize
  · intro q r hr
    exact List.subset_append_of_subset_left _ (h.live q r (lookup_freeRegion hr).2)

theorem sample (h : Books C es s) (hrun : Run system (lruInit C) es s) (hC : 1 ≤ C) {addr : Nat}
    {chunk : Option NodePtr} (he : Enabled s.regions (.sample addr chunk))
    (hs' : handleSample s addr chunk = some s') : Books C (es ++ [.sample addr chunk]) s' := by
  have hregions : ∀ p region, s'.regions.lookup p = some region →
      region.chunks ⊆ trackedChunks es ++ newChunks (.sample addr chunk) := by
    intro p region hregion
    rw [handleSample_regions hs'] at hregion
    exact List.subset_append_of_subset_left _ (h.live p region hregion)
  rcases handleSample_hooks hs' with hhooks | hhooks | ⟨n, head, rfl, hloc, hhead, hhooks⟩
  · -- a hit
    refine h.extend hrun he hs' hhooks rfl rfl (.refl _) rfl ?_ hregions
    intro dir size hsize
    cases hsize
  · -- an address that is not tracked
    refine h.extend hrun he hs' hhooks rfl rfl (.refl _) rfl ?_ hregions
    intro dir size hsize
    cases hsize
  · -- a miss: the two chunks that change places are both live
    refine h.extend hrun he hs' hhooks rfl rfl (.refl _) rfl ?_ hregions
    have hn : (s.chunk n).chunk ∈ trackedChunks es := h.chunk_mem he
    have hv := h.chunk_mem (h.refines.victim_live hC he hloc hhead)
    intro dir size hsize
    cases dir with
    | slow2fast =>
        obtain rfl : size = _ := List.mem_singleton.1 hsize
        exact ⟨_, List.mem_append_left _ hn, rfl⟩
    | fast2slow =>
        obtain rfl : size = _ := List.mem_singleton.1 hsize
        exact ⟨_, List.mem_append_left _ hv, rfl⟩
    | initFast => cases hsize
    | initSlow => cases hsize

theorem step (h : Books C es s) (hrun : Run system (lruInit C) es s) (hC : 1 ≤ C) {e : Event}
    (he : Enabled s.regions e) (hs' : Lru.step s e = some s') : Books C (es ++ [e]) s' := by
  cases e with
  | alloc p region =>
      obtain rfl : allocRegion s p region = s' := Option.some.inj hs'
      exact h.alloc hrun he
  | free p =>
      rcases of_step_free hs' with ⟨region, hregion, rfl⟩
      exact h.free hrun hregion
  | sample addr chunk => exact h.sample hrun hC he hs'

theorem run (hC : 1 ≤ C) (hmax : C ≤ INT_MAX) {es : List Event} {s : State}
    (h : Run system (lruInit C) es s) : Books C es s := by
  induction h with
  | nil => exact init hmax
  | snoc hrun he hs' ih => exact ih.step hrun hC he hs'

end Books

/-- Sizes are positive, so that only chunks of one byte are counted right in `migrationBytes`. -/
theorem Books.sizes_iff {C : Nat} {es : List Event} {s : State} (h : Books C es s)
    (hpos : ∀ x ∈ trackedChunks es, 0 < x.size) :
    (∀ dir, (loggedSizes dir (hooks s.trace)).length = (loggedSizes dir (hooks s.trace)).sum) ↔
      ∀ x ∈ trackedChunks es, x.size = 1 := by
  have hone : ∀ dir, (loggedSizes dir (hooks s.trace)).length =
      (loggedSizes dir (hooks s.trace)).sum ↔ ∀ n ∈ loggedSizes dir (hooks s.trace), n = 1 := by
    intro dir
    refine sum_eq_length_iff ?_
    intro n hn
    rcases h.known dir n hn with ⟨x, hx, rfl⟩
    exact hpos x hx
  simp only [hone]
  constructor
  · intro hlogged x hx
    -- the chunk was logged when it came
    have hmem := h.initial.mem_iff.2 (List.mem_map_of_mem hx)
    rcases List.mem_append.1 hmem with hfast | hslow
    · exact hlogged .initFast _ hfast
    · exact hlogged .initSlow _ hslow
  · intro hsizes dir n hn
    rcases h.known dir n hn with ⟨x, hx, rfl⟩
    exact hsizes x hx

/-- The counters of every run.  Samples, evictions and initial placements are counted right.
Promotions are, exactly if in every release the promoted chunks that stay have their descriptors
behind the released ones; bytes are, exactly if every chunk is one byte long. -/
theorem counters_account {C : Nat} (hC : 1 ≤ C) (hmax : C ≤ INT_MAX) {es : List Event} {s : State}
    (h : Run system (lruInit C) es s) {cs : List HookCall} (hcs : Interleaved s.trace cs)
    (hwrap : NoWrap cs) :
    let c := ShamblesCounters.after cs
    c.hits + c.misses + c.small = es.countP isSample ∧
      c.migrations .fast2slow = c.misses ∧
      c.migrations .initFast + c.migrations .initSlow = (trackedChunks es).length ∧
      (c.migrations .slow2fast =
          c.misses + (system.collect promotedLive (lruInit C) es).length ↔
        Run (system.restrict (PromotionsLogged C)) (lruInit C) es s) ∧
      ((∀ x ∈ trackedChunks es, 0 < x.size) →
        ((∀ dir, c.migrationBytes dir = (loggedSizes dir cs).sum) ↔
          ∀ x ∈ trackedChunks es, x.size = 1)) := by
  have hbooks := Books.run hC hmax h
  rcases after_eq cs with ⟨hhits, hmisses, hsmall, hmigrations, hbytes⟩
  simp only [hhits, hmisses, hsmall, hmigrations, hbytes, wrap64_of_lt hwrap.hits,
    wrap64_of_lt hwrap.misses, wrap64_of_lt hwrap.small, wrap64_of_lt (hwrap.migrations _)]
  -- the calls of `LOG_ALLOC` are not counted here
  rw [countP_of_interleaved hcs (p := HookCall.isHit) fun _ => rfl,
    countP_of_interleaved hcs (p := HookCall.isMiss) fun _ => rfl,
    countP_of_interleaved hcs (p := HookCall.isSmall) fun _ => rfl]
  have hdir : ∀ dir, cs.countP (HookCall.migrates dir) =
      (hooks s.trace).countP (HookCall.migrates dir) :=
    fun dir => countP_of_interleaved hcs fun _ => rfl
  simp only [hdir, loggedSizes_of_interleaved hcs]
  refine ⟨hbooks.samples, hbooks.evictions, ?_, ?_, ?_⟩
  · have hlength := hbooks.initial.length_eq
    simpa [length_loggedSizes] using hlength
  · -- the difference of the two sides is the number of promotions that were not logged
    have hpromoted := hbooks.promoted
    have hlogged : Run (system.restrict (PromotionsLogged C)) (lruInit C) es s ↔
        system.collect unloggedLive (lruInit C) es = [] := by
      refine Run.restrict_iff_collect ?_ h
      intro es s e hrun he
      have hb := Books.run hC hmax hrun
      exact promotionsLogged_iff hb.refines hb.described he
    rw [hlogged, ← List.length_eq_zero_iff]
    simp only [calls] at hpromoted
    omega
  · intro hpos
    rw [← hbooks.sizes_iff hpos]
    simp only [length_loggedSizes]

/-- A miss and a promotion on release, the descriptors in the order of the allocations. -/
theorem counters_account_release :
    ∃ s, Run system (lruInit 1)
        [.alloc 1 ⟨0x18000, [⟨0x18000, 1⟩], 0x800⟩, .alloc 2 ⟨0x38000, [⟨0x38000, 1⟩], 0x900⟩,
          .sample 0x38000 (some ⟨2, 0⟩), .sample 0x18000 (some ⟨1, 0⟩), .free 1] s ∧
      Run (system.restrict (PromotionsLogged 1)) (lruInit 1)
        [.alloc 1 ⟨0x18000, [⟨0x18000, 1⟩], 0x800⟩, .alloc 2 ⟨0x38000, [⟨0x38000, 1⟩], 0x900⟩,
          .sample 0x38000 (some ⟨2, 0⟩), .sample 0x18000 (some ⟨1, 0⟩), .free 1] s ∧
      (ShamblesCounters.after (hooks s.trace)).migrations .slow2fast = 3 ∧
      ∀ dir, (ShamblesCounters.after (hooks s.trace)).migrationBytes dir =
        (loggedSizes dir (hooks s.trace)).sum := by
  rcases Run.of_exec_any system (lruInit 1)
      [.alloc 1 ⟨0x18000, [⟨0x18000, 1⟩], 0x800⟩, .alloc 2 ⟨0x38000, [⟨0x38000, 1⟩], 0x900⟩,
        .sample 0x38000 (some ⟨2, 0⟩), .sample 0x18000 (some ⟨1, 0⟩), .free 1]
      (fun s => hooks s.trace = [.migration .initFast 1, .migration .initSlow 1,
        .sample ⟨true, false⟩, .migration .slow2fast 1, .migration .fast2slow 1,
        .sample ⟨true, false⟩, .migration .slow2fast 1, .migration .fast2slow 1,
        .migration .slow2fast 1]) (by decide) with ⟨s, hrun, hhooks⟩
  have hwrap : NoWrap (hooks s.trace) := by
    rw [hhooks]
    refine ⟨by decide, by decide, by decide, ?_⟩
    intro dir
    cases dir <;> decide
  have hcs : Interleaved s.trace (hooks s.trace) := by
    rw [Interleaved, hhooks]
    rfl
  rcases counters_account (by decide) (by decide) hrun hcs hwrap with ⟨_, _, _, hpromoted, hbytes⟩
  refine ⟨s, hrun, hpromoted.1 ?_, ?_, (hbytes (by decide)).2 (by decide)⟩
  · rw [hhooks]
    decide
  · rw [hhooks]
    decide

/-- The second region has its descriptor below the first.  Its chunk becomes fast when the first
region is released, and no migration is counted; of the 64 KiB placed at the start one byte is. -/
theorem promotion_not_counted :
    ∃ s, Run system (lruInit 1)
        [.alloc 1 ⟨0x18000, [⟨0x18000, 0x10000⟩], 0x900⟩,
          .alloc 2 ⟨0x38000, [⟨0x38000, 0x10000⟩], 0x800⟩, .free 1] s ∧
      let c := ShamblesCounters.after (hooks s.trace)
      c.misses = 0 ∧ c.migrations .slow2fast = 0 ∧
        system.collect promotedLive (lruInit 1)
          [.alloc 1 ⟨0x18000, [⟨0x18000, 0x10000⟩], 0x900⟩,
            .alloc 2 ⟨0x38000, [⟨0x38000, 0x10000⟩], 0x800⟩, .free 1] = [⟨2, 0⟩] ∧
        c.migrationBytes .initFast = 1 ∧
        (loggedSizes .initFast (hooks s.trace)).sum = 0x10000 := by
  exact Run.of_exec_any system (lruInit 1)
    [.alloc 1 ⟨0x18000, [⟨0x18000, 0x10000⟩], 0x900⟩,
      .alloc 2 ⟨0x38000, [⟨0x38000, 0x10000⟩], 0x800⟩, .free 1] _ (by decide)

end Lru
end Shambles
