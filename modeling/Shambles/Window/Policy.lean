import Shambles.Lib.RingBuffer
import Shambles.Window.Allocation
import Shambles.Window.Demote
import Shambles.Window.Promote

/-!
# Policy — what the window plugin keeps in fast memory

The plugin is meant to hold the chunks that occur most often among the last `windowSize` tracked
samples in fast memory.  Every step without a release keeps that up, except for two kinds of
samples on which the promotion goes wrong.  `StepOk` excludes them, read off the state before the
sample; over runs whose steps all meet it the policy holds in every state reached.
-/

namespace Shambles
namespace Window

open CircularList RankedList RingBuffer AssocList Structures Plugins

/-! ## The window of samples -/

def sampledNode : Event → Option NodePtr
  | .sample _ chunk => chunk
  | _ => none

/-- The tracked samples of a run, oldest first. -/
def tracked (es : List Event) : List NodePtr :=
  es.filterMap sampledNode

/-- How often a chunk occurs among the last `windowSize` tracked samples. -/
def occurrences (windowSize : Nat) (es : List Event) (n : NodePtr) : Nat :=
  (lastN windowSize (tracked es)).count n

theorem tracked_snoc (es : List Event) (e : Event) :
    tracked (es ++ [e]) = tracked es ++ (sampledNode e).toList := by
  cases h : sampledNode e with
  | none => simp [tracked, h]
  | some n => simp [tracked, h]

/-! ## The steps that keep the policy -/

/-- How often `n` occurs in the ring without the entry that is overwritten next. -/
def remaining (s : State) (n : NodePtr) : Nat :=
  (s.samples.set s.currentLoc none).count (some n)

/-- `node` is the one slow chunk, ranks below all others, and the class above it is occupied. -/
def Lonely (s : State) (node : NodePtr) : Prop :=
  s.loc node = .slow ∧
    (∀ n ∈ liveNodes s.regions, n ≠ node → s.loc n = .fast ∧ s.count node < s.count n) ∧
    ∃ n ∈ liveNodes s.regions, s.count n = s.count node + 1

instance (s : State) (node : NodePtr) : Decidable (Lonely s node) :=
  inferInstanceAs (Decidable (_ ∧ _ ∧ _))

section Lonely

variable {s : State} {F S : List NodePtr} {node : NodePtr}

theorem Lonely.slow_eq (h : Lonely s node) (hvalid : Valid s F S)
    (hlive : (F ++ S).Perm (liveNodes s.regions)) (hnode : node ∈ F ++ S) : S = [node] := by
  have hall : ∀ n ∈ S, n = node := by
    intro n hn
    by_contra hne
    have hfast := (h.2.1 n (hlive.subset (by simp [hn])) hne).1
    rw [hvalid.loc_slow n hn] at hfast
    cases hfast
  have hS : node ∈ S := by
    rcases List.mem_append.1 hnode with hF | hS
    · have hslow := h.1
      rw [hvalid.loc_fast node hF] at hslow
      cases hslow
    · exact hS
  -- a list without duplicates whose elements are all the same
  have hone : S = List.replicate S.length node := List.eq_replicate_of_mem hall
  have hnd : (List.replicate S.length node).Nodup := hone ▸ hvalid.lists.right.circular.nodup
  have hle : S.length ≤ 1 := List.nodup_replicate.1 hnd
  have hpos : 0 < S.length := List.length_pos_of_mem hS
  rw [hone, show S.length = 1 by omega]
  rfl

theorem Valid.lonely_of_single (h : Valid s F [node])
    (hlive : (F ++ [node]).Perm (liveNodes s.regions)) (habove : ∀ n ∈ F, s.count node < s.count n)
    (hoccupied : lastOf s.count (s.count node + 1) (F ++ [node]) ≠ none) : Lonely s node := by
  refine ⟨h.loc_slow node (by simp), ?_, ?_⟩
  · intro n hn hne
    have hF : n ∈ F := by simpa [hne] using hlive.symm.subset hn
    exact ⟨h.loc_fast n hF, habove n hF⟩
  · rcases Option.ne_none_iff_exists'.1 hoccupied with ⟨t, ht⟩
    rcases mem_of_lastOf ht with ⟨hmem, hrank⟩
    exact ⟨t, hlive.subset hmem, hrank⟩

theorem Valid.lastOf_of_not_lonely (h : Valid s F S)
    (hlive : (F ++ S).Perm (liveNodes s.regions)) (hlonely : ¬ Lonely s node) :
    S = [node] → (∀ n ∈ F, s.count node < s.count n) →
      lastOf s.count (s.count node + 1) (F ++ S) = none := by
  rintro rfl habove
  by_contra hoccupied
  exact hlonely (h.lonely_of_single hlive habove hoccupied)

end Lonely

/-- `x` is going to be lonely once the entry that is overwritten next has left the ring. -/
def LonelySlow (s : State) (x : NodePtr) : Prop :=
  (liveNodes s.regions).countP (fun n => s.loc n = .slow) = 1 ∧
    (∀ n ∈ liveNodes s.regions, n ≠ x → remaining s x < remaining s n) ∧
    ∃ n ∈ liveNodes s.regions, remaining s n = remaining s x + 1

instance (s : State) (x : NodePtr) : Decidable (LonelySlow s x) :=
  inferInstanceAs (Decidable (_ ∧ _ ∧ _))

/-- No release; and a sampled chunk either stands in the entry that is overwritten, or it does not
fill the rest of the ring and does not become the last of a class with itself as predecessor. -/
def StepOk (s : State) : Event → Prop
  | .alloc _ _ => True
  | .free _ => False
  | .sample _ none => True
  | .sample _ (some x) =>
      s.samples[s.currentLoc]? = some (some x) ∨
        remaining s x + 1 < s.windowSize ∧ ¬ LonelySlow s x

instance (s : State) : (e : Event) → Decidable (StepOk s e)
  | .alloc _ _ => isTrue trivial
  | .free _ => isFalse id
  | .sample _ none => isTrue trivial
  | .sample _ (some x) =>
      inferInstanceAs (Decidable (s.samples[s.currentLoc]? = some (some x) ∨
        remaining s x + 1 < s.windowSize ∧ ¬ LonelySlow s x))

instance (s : State) (e : Event) : Decidable ((system.restrict StepOk).enabled s e) :=
  inferInstanceAs (Decidable (Enabled s.regions e ∧ StepOk s e))

/-! ## The invariant -/

/-- After the tracked samples `T`, the state has the live nodes in the lists `F` and `S`, ranked by
how often they occur in the ring. -/
structure Follows (C W : Nat) (T : List NodePtr) (s : State) (F S : List NodePtr) : Prop where
  valid : Valid s F S
  window : s.windowSize = W
  live : (F ++ S).Perm (liveNodes s.regions)
  ring : Holds s.samples s.currentLoc W T
  counted : ∀ n ∈ F ++ S, s.count n = s.samples.count (some n)
  sampled : ∀ n, some n ∈ s.samples → n ∈ F ++ S
  full : F.length = min C (F.length + S.length)
  free : s.freeFastChunks = (C : Int) - F.length

namespace Follows

variable {C W : Nat} {T : List NodePtr} {s : State} {F S : List NodePtr}

theorem represents (h : Follows C W T s F S) : Lru.Represents C (lruView s) F S :=
  ⟨h.valid.lists, h.valid.loc_fast, h.valid.loc_slow, h.full, h.free⟩

theorem currentLoc_lt (h : Follows C W T s F S) : s.currentLoc < s.samples.length := by
  rw [h.ring.length]
  exact h.ring.pos_lt

theorem init (hC : C ≤ INT_MAX) (hW : 0 < W) (chunkSize : Nat) :
    Follows C W [] (windowInit C chunkSize W) [] [] := by
  have htails : List.replicate (W + 1) (none : Option NodePtr) =
      index (fun _ => 0) (W + 1) ([] ++ []) := by
    simp [index, lastOf]
  refine ⟨⟨⟨⟨⟨rfl, Circular.nil _⟩, ⟨rfl, Circular.nil _⟩, by simp⟩, by simp, by simp,
    List.Pairwise.nil, by simp, htails⟩, by simp⟩, rfl, List.Perm.nil, holds_empty hW, by simp, ?_,
    by simp, ?_⟩
  · intro n hn
    simp [windowInit] at hn
  · simpa [windowInit] using toInt_of_le hC

/-- A chunk that `getChunkInfo` finds is in one of the lists. -/
theorem mem_of_live (h : Follows C W T s F S) {n : NodePtr} (hn : LiveNode s.regions n) :
    n ∈ F ++ S :=
  h.live.symm.subset hn.mem_liveNodes

/-! ## Allocation -/

theorem alloc (h : Follows C W T s F S) (hC : 1 ≤ C) {p : RegionPtr} {region : ShamblesRegion}
    (hfresh : s.regions.lookup p = none) (hregion : region.chunks ≠ []) :
    ∃ s' F' S', allocRegion s p region = some s' ∧ Follows C W T s' F' S' := by
  have hnew : ∀ n ∈ F ++ S, n.region ≠ p := by
    intro n hn hnp
    rcases List.mem_flatMap.1 (h.live.subset hn) with ⟨r, hr, hnr⟩
    refine notMem_keys_of_lookup hfresh (List.mem_map.2 ⟨r, hr, ?_⟩)
    exact (mem_nodesOf.1 hnr).1.symm.trans hnp
  rcases h.valid.allocRegion_spec h.represents hC hnew hregion with
    ⟨s', F', S', hs', hvalid, hrep, horder, hold, hzero, hsamples, hloc, hwindow, hregions⟩
  refine ⟨s', F', S', hs', hvalid, hwindow.trans h.window, ?_, ?_, ?_, ?_, hrep.full, hrep.free⟩
  · rw [horder, hregions]
    exact List.perm_append_comm.trans (List.Perm.append_left _ h.live)
  · rw [hsamples, hloc]
    exact h.ring
  · intro n hn
    rw [hsamples]
    rw [horder] at hn
    rcases List.mem_append.1 hn with hn | hn
    · rw [hold n hn]
      exact h.counted n hn
    · -- A new chunk has not been sampled.
      rw [hzero n hn]
      refine (List.count_eq_zero.2 ?_).symm
      intro hmem
      exact hnew n (h.sampled n hmem) (mem_nodesOf.1 hn).1
  · intro n hn
    rw [hsamples] at hn
    rw [horder]
    exact List.mem_append_left _ (h.sampled n hn)

/-! ## Samples -/

theorem emit (h : Follows C W T s F S) (es : List Effect) : Follows C W T (s.emit es) F S :=
  ⟨h.valid.emit es, h.window, h.live, h.ring, h.counted, h.sampled, h.full, h.free⟩

/-- The overwritten entry leaves the ring: afterwards every count is what remains. -/
theorem leave (h : Follows C W T s F S) {old : Option NodePtr}
    (hentry : s.samples[s.currentLoc]? = some old) :
    ∃ s₁ F₁ S₁, leaveRing s old = some s₁ ∧
      Valid s₁ F₁ S₁ ∧ (F₁ ++ S₁).Perm (F ++ S) ∧ F₁.length = F.length ∧ SameRest s s₁ ∧
      ∀ n ∈ F ++ S, s₁.count n = remaining s n := by
  have hpos := h.currentLoc_lt
  have hremaining : ∀ n ∈ F ++ S,
      remaining s n = s.count n - if old = some n then 1 else 0 := by
    intro n hn
    rw [remaining, count_set_none hpos, hentry, h.counted n hn]
    simp
  cases old with
  | none =>
      refine ⟨s, F, S, rfl, h.valid, List.Perm.refl _, rfl, ⟨rfl, rfl, rfl, rfl, rfl, rfl⟩, ?_⟩
      intro n hn
      simp [hremaining n hn]
  | some o =>
      have hmem : some o ∈ s.samples := List.mem_of_getElem? hentry
      have ho : o ∈ F ++ S := h.sampled o hmem
      have hcount : 0 < s.count o := by
        rw [h.counted o ho]
        exact List.count_pos_iff.2 hmem
      rcases h.valid.demote_spec ho hcount with ⟨s₁, F₁, S₁, hs₁, hmoved⟩
      refine ⟨s₁, F₁, S₁, hs₁, hmoved.valid, hmoved.perm h.valid.ranked ho, hmoved.length,
        hmoved.rest, ?_⟩
      intro n hn
      rw [hmoved.count, hremaining n hn]
      by_cases hno : n = o
      · simp [hno]
      · have hon : o ≠ n := fun hon => hno hon.symm
        simp [hno, hon]

theorem slow_count (h : Follows C W T s F S) :
    (liveNodes s.regions).countP (fun n => s.loc n = .slow) = S.length := by
  rw [← h.live.countP_eq]
  exact h.valid.countP_slow

/-- What `promote` asks for behind the demotion, and what `StepOk` says in front of it. -/
theorem lonely_iff {x : NodePtr} (h : Follows C W T s F S) (hx : x ∈ F ++ S) {s₁ : State}
    {F₁ S₁ : List NodePtr} (hvalid : Valid s₁ F₁ S₁) (hperm : (F₁ ++ S₁).Perm (F ++ S))
    (hlength : F₁.length = F.length) (hregions : s₁.regions = s.regions)
    (hcount : ∀ n ∈ F ++ S, s₁.count n = remaining s n) : Lonely s₁ x ↔ LonelySlow s x := by
  have hlive : (F₁ ++ S₁).Perm (liveNodes s₁.regions) := by
    rw [hregions]
    exact hperm.trans h.live
  have hslow : S₁.length = S.length := by
    have hlen := hperm.length_eq
    simp only [List.length_append] at hlen
    omega
  have hremaining : ∀ n ∈ liveNodes s.regions, s₁.count n = remaining s n :=
    fun n hn => hcount n (h.live.symm.subset hn)
  constructor
  · intro hlonely
    have hone := hlonely.slow_eq hvalid hlive (hperm.symm.subset hx)
    rcases hlonely with ⟨_, habove, t, ht, hrank⟩
    rw [hregions] at habove ht
    refine ⟨?_, ?_, t, ht, ?_⟩
    · rw [h.slow_count, ← hslow, hone]
      rfl
    · intro n hn hnx
      rw [← hcount x hx, ← hremaining n hn]
      exact (habove n hn hnx).2
    · rw [← hcount x hx, ← hremaining t ht]
      exact hrank
  · rintro ⟨hone, habove, t, ht, hrank⟩
    rw [h.slow_count, ← hslow] at hone
    rcases List.length_eq_one_iff.1 hone with ⟨y, rfl⟩
    -- the slow chunk ranks lowest, and so does `x`
    obtain rfl : y = x := by
      by_contra hyx
      have hy : y ∈ F ++ S := hperm.subset (by simp)
      have hxF : x ∈ F₁ := by
        have hxy : x ≠ y := fun heq => hyx heq.symm
        simpa [hxy] using hperm.symm.subset hx
      have hle := (Ranked.append_iff.1 hvalid.ranked).2.2 x hxF y (by simp)
      have hlt := habove y (h.live.subset hy) hyx
      rw [← hcount x hx, ← hcount y hy] at hlt
      omega
    refine hvalid.lonely_of_single hlive ?_ ?_
    · intro n hn
      have hnFS : n ∈ F ++ S := hperm.subset (by simp [hn])
      rw [hcount y hx, hcount n hnFS]
      refine habove n (h.live.subset hnFS) ?_
      rintro rfl
      exact hvalid.lists.disjoint hn (by simp)
    · intro hnone
      refine lastOf_eq_none_iff.1 hnone t (hperm.symm.subset (h.live.symm.subset ht)) ?_
      rw [hcount y hx, hremaining t ht]
      exact hrank

/-- The chunk that is overwritten by itself. -/
theorem sample_same (h : Follows C W T s F S) {x : NodePtr}
    (hentry : s.samples[s.currentLoc]? = some (some x)) :
    Follows C W (T ++ [x]) s.advance F S := by
  have hset : s.samples.set s.currentLoc (some x) = s.samples := set_eq_self hentry
  have hring := h.ring.write x
  rw [hset, ← h.window] at hring
  refine ⟨h.valid.withRing _ _, h.window, h.live, ?_, h.counted, h.sampled, h.full, h.free⟩
  rw [← h.window]
  exact hring

/-- The state once the sampled chunk has been promoted: it has one entry more in the ring, and the
others have what remains. -/
theorem entered (h : Follows C W T s F S) {x : NodePtr} (hx : x ∈ F ++ S) {s' : State}
    {F' S' : List NodePtr} (hvalid : Valid s' F' S') (hperm : (F' ++ S').Perm (F ++ S))
    (hlength : F'.length = F.length)
    (hrest : SameRest { s with samples := s.samples.set s.currentLoc (some x) } s')
    (hcount : ∀ n ∈ F ++ S, s'.count n = remaining s n + if x = n then 1 else 0) :
    Follows C W (T ++ [x]) s'.advance F' S' := by
  have hsamples : s'.samples = s.samples.set s.currentLoc (some x) := hrest.samples
  have hwindow : s'.windowSize = W := hrest.windowSize.trans h.window
  refine ⟨hvalid.withRing _ _, hwindow, ?_, ?_, ?_, ?_, ?_, ?_⟩
  · change (F' ++ S').Perm (liveNodes s'.regions)
    rw [hrest.regions]
    exact hperm.trans h.live
  · change Holds s'.samples ((s'.currentLoc + 1) % s'.windowSize) W (T ++ [x])
    rw [hsamples, hrest.currentLoc, hwindow]
    exact h.ring.write x
  · intro n hn
    change s'.count n = s'.samples.count (some n)
    rw [hsamples, count_set_some h.currentLoc_lt, hcount n (hperm.subset hn)]
    rfl
  · intro n hn
    change some n ∈ s'.samples at hn
    rw [hsamples] at hn
    refine hperm.symm.subset ?_
    rcases List.mem_or_eq_of_mem_set hn with hold | hnew
    · exact h.sampled n hold
    · rw [Option.some.inj hnew]
      exact hx
  · have hlen := hperm.length_eq
    have hfull := h.full
    simp only [List.length_append] at hlen
    omega
  · change s'.freeFastChunks = _
    rw [hrest.freeFastChunks, hlength]
    exact h.free

/-- The ring entry is replaced and the new chunk promoted, from a state in which every count is
what remains. -/
theorem enter (h : Follows C W T s F S) {x : NodePtr} (hx : x ∈ F ++ S)
    (hroom : remaining s x + 1 < s.windowSize) (hlonely : ¬ LonelySlow s x) {s₁ : State}
    {F₁ S₁ : List NodePtr} (hvalid : Valid s₁ F₁ S₁) (hperm : (F₁ ++ S₁).Perm (F ++ S))
    (hlength : F₁.length = F.length) (hrest : SameRest s s₁)
    (hcount : ∀ n ∈ F ++ S, s₁.count n = remaining s n) :
    ∃ s₂ s₃ F₂ S₂, s₁.setSample x = some s₂ ∧ promote s₂ x = some s₃ ∧
      Follows C W (T ++ [x]) s₃.advance F₂ S₂ := by
  let s₂ : State := { s₁ with samples := s₁.samples.set s₁.currentLoc (some x) }
  have hset : s₁.setSample x = some s₂ := by
    have hlt : s₁.currentLoc < s₁.samples.length := by
      rw [hrest.currentLoc, hrest.samples]
      exact h.currentLoc_lt
    simp [State.setSample, hlt, s₂]
  have hvalid₂ : Valid s₂ F₁ S₁ := hvalid.withRing _ _
  have hx₁ : x ∈ F₁ ++ S₁ := hperm.symm.subset hx
  have hxc : s₂.count x = remaining s x := hcount x hx
  have hwindow₂ : s₂.windowSize = s.windowSize := hrest.windowSize
  have hlive₂ : (F₁ ++ S₁).Perm (liveNodes s₂.regions) := by
    show (F₁ ++ S₁).Perm (liveNodes s₁.regions)
    rw [hrest.regions]
    exact hperm.trans h.live
  have hlonely₂ : ¬ Lonely s₂ x := by
    rwa [h.lonely_iff hx hvalid₂ hperm hlength hrest.regions hcount]
  rcases hvalid₂.promote_spec hx₁ (by omega) (hvalid₂.lastOf_of_not_lonely hlive₂ hlonely₂) with
    ⟨s₃, F₂, S₂, hs₃, hmoved⟩
  refine ⟨s₂, s₃, F₂, S₂, hset, hs₃, h.entered hx hmoved.valid
    ((hmoved.perm hvalid.ranked hx₁).trans hperm) (hmoved.length.trans hlength) ?_ ?_⟩
  · have hsamples : s₂.samples = s.samples.set s.currentLoc (some x) := by
      change s₁.samples.set s₁.currentLoc (some x) = _
      rw [hrest.samples, hrest.currentLoc]
    exact ⟨hmoved.rest.freeFastChunks.trans hrest.freeFastChunks,
      hmoved.rest.chunk.trans hrest.chunk, hmoved.rest.samples.trans hsamples,
      hmoved.rest.windowSize.trans hrest.windowSize,
      hmoved.rest.currentLoc.trans hrest.currentLoc, hmoved.rest.regions.trans hrest.regions⟩
  · -- Only the count of the new chunk has been raised.
    intro n hn
    rw [hmoved.count]
    by_cases hnx : n = x
    · subst hnx
      rw [Function.update_self, if_pos rfl, hxc]
    · have hxn : ¬ x = n := fun hxn => hnx hxn.symm
      rw [Function.update_of_ne hnx, if_neg hxn, Nat.add_zero]
      exact hcount n hn

theorem sample (h : Follows C W T s F S) (addr : Nat) {x : NodePtr} (hx : x ∈ F ++ S)
    (hok : StepOk s (.sample addr (some x))) :
    ∃ s' F' S', handleSample s addr (some x) = some s' ∧ Follows C W (T ++ [x]) s' F' S' := by
  have hlogged := h.emit [.logSample addr ⟨true, s.loc x = .fast⟩]
  cases hentry : s.samples[s.currentLoc]? with
  | none =>
      have hout := List.getElem?_eq_none_iff.1 hentry
      exact absurd h.currentLoc_lt (by omega)
  | some old =>
      -- The log entry changes nothing that the rest of the function reads.
      have hread : (s.emit [.logSample addr ⟨true, s.loc x = .fast⟩]).samples[
          (s.emit [.logSample addr ⟨true, s.loc x = .fast⟩]).currentLoc]? = some old := hentry
      simp only [handleSample, State.getSample_option, hread, Option.pure_def, Option.bind_eq_bind,
        Option.bind_some]
      by_cases hsame : old = some x
      · subst hsame
        refine ⟨_, F, S, ?_, hlogged.sample_same hread⟩
        simp
      · rcases hok with hsame' | ⟨hroom, hlonely⟩
        · rw [hentry, Option.some.injEq] at hsame'
          exact absurd hsame' hsame
        · rcases hlogged.leave hread with
            ⟨s₁, F₁, S₁, hs₁, hvalid, hperm, hlength, hrest, hcount⟩
          rcases hlogged.enter hx hroom hlonely hvalid hperm hlength hrest hcount with
            ⟨s₂, s₃, F₂, S₂, hs₂, hs₃, hfollows⟩
          refine ⟨_, F₂, S₂, ?_, hfollows⟩
          rw [if_neg hsame, hs₁, Option.bind_some, hs₂, Option.bind_some, hs₃, Option.bind_some]

/-! ## Steps and runs -/

theorem step (h : Follows C W T s F S) (hC : 1 ≤ C) {e : Event} (he : Enabled s.regions e)
    (hok : StepOk s e) :
    ∃ s' F' S', Window.step s e = some s' ∧
      Follows C W (T ++ (sampledNode e).toList) s' F' S' := by
  cases e with
  | alloc p region =>
      rcases h.alloc hC he.1 he.2 with ⟨s', F', S', hs', hfollows⟩
      exact ⟨s', F', S', hs', by simpa [sampledNode] using hfollows⟩
  | free p => exact absurd hok id
  | sample addr chunk =>
      cases chunk with
      | none =>
          have hlogged := h.emit [.logSample addr ⟨false, false⟩]
          exact ⟨_, F, S, rfl, by simpa [sampledNode] using hlogged⟩
      | some x => exact h.sample addr (h.mem_of_live he) hok

theorem run (hC : 1 ≤ C) (hmax : C ≤ INT_MAX) (hW : 0 < W) {chunkSize : Nat} {es : List Event}
    (h : Run (system.restrict StepOk) (windowInit C chunkSize W) es s) :
    ∃ F S, Follows C W (tracked es) s F S := by
  refine Run.invariant (P := fun es s => ∃ F S, Follows C W (tracked es) s F S)
    ⟨[], [], init hmax hW chunkSize⟩ ?_ h
  rintro es s e s' ⟨F, S, hfollows⟩ hen hst
  rcases hfollows.step hC hen.1 hen.2 with ⟨s'', F', S', hs'', hfollows'⟩
  obtain rfl : s'' = s' := Option.some.inj (hs''.symm.trans hst)
  rw [tracked_snoc]
  exact ⟨F', S', hfollows'⟩

end Follows

/-! ## The policy -/

structure PolicyHolds (C W : Nat) (es : List Event) (s : State) : Prop where
  /-- As much of the fast memory is used as there are chunks for. -/
  fast_count : (liveNodes s.regions).countP (fun n => s.loc n = .fast) =
    min C (liveNodes s.regions).length
  /-- No slow chunk occurs more often in the window than a fast one. -/
  fast_first : ∀ f ∈ liveNodes s.regions, ∀ g ∈ liveNodes s.regions,
    s.loc f = .fast → s.loc g = .slow → occurrences W es g ≤ occurrences W es f
  /-- The next step reads no NULL pointer and no array out of bounds. -/
  defined : ∀ e, Enabled s.regions e → StepOk s e → ∃ s', step s e = some s'

/-- In every run whose steps are all `StepOk` the policy holds in every state reached. -/
theorem window_policy {C W chunkSize : Nat} (hC : 1 ≤ C) (hmax : C ≤ INT_MAX) (hW : 2 ≤ W)
    {es : List Event} {s : State}
    (h : Run (system.restrict StepOk) (windowInit C chunkSize W) es s) : PolicyHolds C W es s := by
  rcases Follows.run hC hmax (by omega) h with ⟨F, S, hfollows⟩
  have hv := hfollows.valid
  have hlen := hfollows.live.length_eq
  rw [List.length_append] at hlen
  refine ⟨?_, ?_, ?_⟩
  · rw [← hfollows.live.countP_eq, hv.countP_fast, ← hlen]
    exact hfollows.full
  · intro f hf g hg hfloc hgloc
    have hfF : f ∈ F := (hfollows.represents.mem_fast_iff (hfollows.live.symm.subset hf)).1 hfloc
    have hgFS : g ∈ F ++ S := hfollows.live.symm.subset hg
    have hgS : g ∈ S := by
      rcases List.mem_append.1 hgFS with hgF | hgS
      · simp [hv.loc_fast g hgF] at hgloc
      · exact hgS
    -- The counts are the occurrences, and the whole list is ranked by them.
    calc occurrences W es g
        = s.count g := by rw [hfollows.counted g hgFS, hfollows.ring.count_eq, occurrences]
      _ ≤ s.count f := (Ranked.append_iff.1 hv.ranked).2.2 f hfF g hgS
      _ = occurrences W es f := by
          rw [hfollows.counted f (List.mem_append_left _ hfF), hfollows.ring.count_eq, occurrences]
  · intro e he hok
    rcases hfollows.step hC he hok with ⟨s', _, _, hs', _⟩
    exact ⟨s', hs'⟩

/-- Three chunks for two fast places, window size 3: the third chunk is sampled until it has
replaced the first. -/
theorem window_policy_replaces :
    ∃ s, Run (system.restrict StepOk) (windowInit 2 0x10000 3)
        [.alloc 7 ⟨0x18000, [⟨0x18000, 0x10000⟩, ⟨0x28000, 0x10000⟩, ⟨0x38000, 0x10000⟩], 0x800⟩,
          .sample 0x28000 (some ⟨7, 1⟩), .sample 0x38000 (some ⟨7, 2⟩), .sample 0 none] s ∧
      s.loc ⟨7, 2⟩ = .fast ∧
      PolicyHolds 2 3
        [.alloc 7 ⟨0x18000, [⟨0x18000, 0x10000⟩, ⟨0x28000, 0x10000⟩, ⟨0x38000, 0x10000⟩], 0x800⟩,
          .sample 0x28000 (some ⟨7, 1⟩), .sample 0x38000 (some ⟨7, 2⟩), .sample 0 none] s := by
  rcases Run.of_exec (system.restrict StepOk) (windowInit 2 0x10000 3)
    [.alloc 7 ⟨0x18000, [⟨0x18000, 0x10000⟩, ⟨0x28000, 0x10000⟩, ⟨0x38000, 0x10000⟩], 0x800⟩,
      .sample 0x28000 (some ⟨7, 1⟩), .sample 0x38000 (some ⟨7, 2⟩), .sample 0 none] (by decide) with
    ⟨s, hs, hrun⟩
  obtain rfl := Option.some.inj hs
  exact ⟨_, hrun, by decide, window_policy (by decide) (by decide) (by decide) hrun⟩

/-- The third chunk is promoted as the only slow one while the class above it is occupied.  It
stays in `tails[0]`, the next demotion links a fast node into the slow list behind it, and two
samples later a fast chunk that does not occur in the window faces a slow one that does. -/
theorem fast_without_occurrence :
    ∃ s, Run system (windowInit 2 0x10000 3)
        [.alloc 7 ⟨0x18000, [⟨0x18000, 0x10000⟩, ⟨0x28000, 0x10000⟩, ⟨0x38000, 0x10000⟩], 0x800⟩,
          .sample 0x18000 (some ⟨7, 0⟩), .sample 0x28000 (some ⟨7, 1⟩), .sample 0x38000 (some ⟨7, 2⟩),
          .sample 0x18000 (some ⟨7, 0⟩), .sample 0x28000 (some ⟨7, 1⟩), .sample 0x28000 (some ⟨7, 1⟩),
          .sample 0x38000 (some ⟨7, 2⟩)] s ∧
      (⟨7, 0⟩ : NodePtr) ∈ liveNodes s.regions ∧ (⟨7, 2⟩ : NodePtr) ∈ liveNodes s.regions ∧
      s.loc ⟨7, 0⟩ = .fast ∧ s.loc ⟨7, 2⟩ = .slow ∧
      occurrences 3
          [.alloc 7 ⟨0x18000, [⟨0x18000, 0x10000⟩, ⟨0x28000, 0x10000⟩, ⟨0x38000, 0x10000⟩], 0x800⟩,
            .sample 0x18000 (some ⟨7, 0⟩), .sample 0x28000 (some ⟨7, 1⟩), .sample 0x38000 (some ⟨7, 2⟩),
            .sample 0x18000 (some ⟨7, 0⟩), .sample 0x28000 (some ⟨7, 1⟩), .sample 0x28000 (some ⟨7, 1⟩),
            .sample 0x38000 (some ⟨7, 2⟩)] ⟨7, 0⟩ <
        occurrences 3
          [.alloc 7 ⟨0x18000, [⟨0x18000, 0x10000⟩, ⟨0x28000, 0x10000⟩, ⟨0x38000, 0x10000⟩], 0x800⟩,
            .sample 0x18000 (some ⟨7, 0⟩), .sample 0x28000 (some ⟨7, 1⟩), .sample 0x38000 (some ⟨7, 2⟩),
            .sample 0x18000 (some ⟨7, 0⟩), .sample 0x28000 (some ⟨7, 1⟩), .sample 0x28000 (some ⟨7, 1⟩),
            .sample 0x38000 (some ⟨7, 2⟩)] ⟨7, 2⟩ := by
  rcases Run.of_exec system (windowInit 2 0x10000 3)
    [.alloc 7 ⟨0x18000, [⟨0x18000, 0x10000⟩, ⟨0x28000, 0x10000⟩, ⟨0x38000, 0x10000⟩], 0x800⟩,
      .sample 0x18000 (some ⟨7, 0⟩), .sample 0x28000 (some ⟨7, 1⟩), .sample 0x38000 (some ⟨7, 2⟩),
      .sample 0x18000 (some ⟨7, 0⟩), .sample 0x28000 (some ⟨7, 1⟩), .sample 0x28000 (some ⟨7, 1⟩),
      .sample 0x38000 (some ⟨7, 2⟩)] (by decide) with
    ⟨s, hs, hrun⟩
  obtain rfl := Option.some.inj hs
  exact ⟨_, hrun, by decide, by decide, by decide, by decide, by decide⟩

end Window
end Shambles
