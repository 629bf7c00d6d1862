import Shambles.Lib.AssocList
import Shambles.Lru.Model

/-!
# Refinement — the LRU plugin keeps one recency list

The purpose of `lru.c` is a single list of chunks, most recently used first, of which the first
`fastChunks` are in fast memory.  The code splits that list in two (`mru`, `lru`), tags every node
with its half and counts the unused places.  `Represents` ties the two views together; one lemma
for each piece of the callbacks shows that it is kept, also between the iterations of the release
loop, where chunks of the very region being released may be promoted.
-/

namespace Shambles
namespace Lru

open CircularList AssocList Structures Plugins

/-! ## The abstract recency list -/

def recencyStep (L : List NodePtr) : Event → List NodePtr
  | .alloc p region => L ++ nodesOf p region
  | .free p => L.filter (fun n => n.region ≠ p)
  | .sample _ (some node) => node :: L.erase node
  | .sample _ none => L

def recency (es : List Event) : List NodePtr :=
  es.foldl recencyStep []

theorem recency_snoc (es : List Event) (e : Event) :
    recency (es ++ [e]) = recencyStep (recency es) e := by
  simp [recency]

/-! ## The representation -/

/-- The two lists `m` (fast) and `l` (slow) as the state holds them, for capacity `C`. -/
structure Represents (C : Nat) (s : State) (m l : List NodePtr) : Prop where
  lists : TwoLists s.links s.mru s.lru m l
  loc_fast : ∀ n ∈ m, s.loc n = .fast
  loc_slow : ∀ n ∈ l, s.loc n = .slow
  full : m.length = min C (m.length + l.length)
  free : s.freeFastChunks = (C : Int) - m.length

namespace Represents

variable {C : Nat} {s s' : State} {m l A B : List NodePtr} {n : NodePtr}

/-- The lists, the tags of their nodes and the counter are all that matters. -/
theorem congr (h : Represents C s m l) (hlinks : s'.links = s.links) (hmru : s'.mru = s.mru)
    (hlru : s'.lru = s.lru) (hloc : ∀ n ∈ m ++ l, s'.loc n = s.loc n)
    (hfree : s'.freeFastChunks = s.freeFastChunks) : Represents C s' m l := by
  refine ⟨?_, ?_, ?_, h.full, ?_⟩
  · simpa [hlinks, hmru, hlru] using h.lists
  · intro x hx
    simpa [hloc x (List.mem_append_left _ hx)] using h.loc_fast x hx
  · intro x hx
    simpa [hloc x (List.mem_append_right _ hx)] using h.loc_slow x hx
  · simpa [hfree] using h.free

theorem emit (h : Represents C s m l) (es : List Effect) : Represents C (s.emit es) m l :=
  h.congr rfl rfl rfl (fun _ _ => rfl) rfl

theorem mem_fast_iff (h : Represents C s m l) (hn : n ∈ m ++ l) : s.loc n = .fast ↔ n ∈ m := by
  constructor
  · intro hfast
    rcases List.mem_append.1 hn with hm | hl
    · exact hm
    · simp [h.loc_slow n hl] at hfast
  · exact h.loc_fast n

/-- A slow chunk exists only while the fast memory is full. -/
theorem eq_nil_of_lt (h : Represents C s m l) (hlt : m.length < C) : l = [] := by
  have hfull := h.full
  apply List.eq_nil_of_length_eq_zero
  omega

theorem length_eq_of_mem (h : Represents C s m l) (hn : n ∈ l) : m.length = C := by
  have hfull := h.full
  have hpos : 0 < l.length := List.length_pos_of_mem hn
  omega

/-! ## Allocation -/

theorem placeFast_one (h : Represents C s m l) (hfree : s.freeFastChunks ≠ 0) (hn : n ∉ m ++ l)
    (es : List Effect) :
    Represents C
      { ((s.setLoc n .fast).enqMru n).emit es with freeFastChunks := s.freeFastChunks - 1 }
      (m ++ [n]) l := by
  have hcount := h.free
  have hfull := h.full
  have hlt : m.length < C := by omega
  have hnil : l = [] := h.eq_nil_of_lt hlt
  subst hnil
  have hm : n ∉ m := by simpa using hn
  refine ⟨h.lists.enq_left hm (by simp), ?_, by simp, ?_, ?_⟩
  · intro x hx
    by_cases hxn : x = n
    · simp [State.emit, State.enqMru, State.setLoc, hxn]
    · have hxm : x ∈ m := by simpa [hxn] using hx
      simpa [State.emit, State.enqMru, State.setLoc, hxn] using h.loc_fast x hxm
  · simp only [List.length_append, List.length_cons, List.length_nil]
    omega
  · simp only [List.length_append, List.length_cons, List.length_nil]
    push_cast
    omega

theorem placeSlow_one (h : Represents C s m l) (hfull : m.length = C) (hn : n ∉ m ++ l)
    (es : List Effect) :
    Represents C (((s.setLoc n .slow).enqLru n).emit es) m (l ++ [n]) := by
  simp only [List.mem_append, not_or] at hn
  refine ⟨(h.lists.symm.enq_left hn.2 hn.1).symm, ?_, ?_, ?_, h.free⟩
  · intro x hx
    have hxn : x ≠ n := fun hxn => hn.1 (hxn ▸ hx)
    simpa [State.emit, State.enqLru, State.setLoc, hxn] using h.loc_fast x hx
  · intro x hx
    by_cases hxn : x = n
    · simp [State.emit, State.enqLru, State.setLoc, hxn]
    · have hxl : x ∈ l := by simpa [hxn] using hx
      simpa [State.emit, State.enqLru, State.setLoc, hxn] using h.loc_slow x hxl
  · simp only [List.length_append, List.length_cons, List.length_nil]
    omega

/-- The second loop of the allocation branch appends every node to the slow list. -/
theorem placeSlow_all {ns : List NodePtr} :
    ∀ {s : State} {l : List NodePtr}, Represents C s m l → m.length = C → ns.Nodup →
      (∀ n ∈ ns, n ∉ m ++ l) → Represents C (placeSlow s ns) m (l ++ ns) := by
  induction ns with
  | nil =>
      intro s l h _ _ _
      simpa [placeSlow] using h
  | cons n rest ih =>
      intro s l h hfull hnd hfresh
      have hone := h.placeSlow_one hfull (hfresh n (by simp)) (bindSlowAlloc (s.chunk n).chunk)
      have hrest : ∀ x ∈ rest, x ∉ m ++ (l ++ [n]) := by
        intro x hx hmem
        have hxn : x ≠ n := fun hxn => (List.nodup_cons.1 hnd).1 (hxn ▸ hx)
        have hold := hfresh x (by simp [hx])
        simp [hxn] at hmem
        simp [hmem] at hold
      simpa [placeSlow, List.append_assoc] using ih hone hfull hnd.of_cons hrest

/-- Both loops together append the nodes of the region to the recency list. -/
theorem place_all {ns : List NodePtr} :
    ∀ {s : State} {m l : List NodePtr}, Represents C s m l → ns.Nodup →
      (∀ n ∈ ns, n ∉ m ++ l) →
      ∃ m' l', Represents C (placeSlow (placeFast s ns).1 (placeFast s ns).2) m' l' ∧
        m' ++ l' = m ++ l ++ ns := by
  induction ns with
  | nil =>
      intro s m l h _ _
      exact ⟨m, l, by simpa [placeFast, placeSlow] using h, by simp⟩
  | cons n rest ih =>
      intro s m l h hnd hfresh
      by_cases hfree : s.freeFastChunks = 0
      · -- No place is left: the first loop stops here and the second takes all nodes.
        have hfull : m.length = C := by
          have hcount := h.free
          omega
        refine ⟨m, l ++ n :: rest, ?_, by simp⟩
        simpa [placeFast, hfree] using h.placeSlow_all hfull hnd hfresh
      · have hlt : m.length < C := by
          have hcount := h.free
          have hle := h.full
          omega
        have hnil : l = [] := h.eq_nil_of_lt hlt
        subst hnil
        have hone := h.placeFast_one hfree (hfresh n (by simp)) (bindFastAlloc (s.chunk n).chunk)
        have hrest : ∀ x ∈ rest, x ∉ m ++ [n] ++ [] := by
          intro x hx hmem
          have hxn : x ≠ n := fun hxn => (List.nodup_cons.1 hnd).1 (hxn ▸ hx)
          have hold := hfresh x (by simp [hx])
          simp [hxn] at hmem
          simp [hmem] at hold
        rcases ih hone hnd.of_cons hrest with ⟨m', l', hrep, heq⟩
        refine ⟨m', l', ?_, by simpa using heq⟩
        simpa [placeFast, hfree, State.emit, State.enqMru, State.setLoc] using hrep

/-! ## Release -/

theorem freeChunk_slow (h : Represents C s m (A ++ n :: B)) (region : ShamblesRegion) :
    Represents C (freeChunk region s n) m (A ++ B) := by
  have hloc : s.loc n = .slow := h.loc_slow n (by simp)
  have hlen : m.length = C := h.length_eq_of_mem (n := n) (by simp)
  simp only [freeChunk, hloc, if_true]
  refine ⟨h.lists.symm.dq_left.symm, h.loc_fast, ?_, ?_, h.free⟩
  · intro x hx
    apply h.loc_slow x
    simp only [List.mem_append, List.mem_cons] at hx ⊢
    tauto
  · omega

/-- A fast chunk leaves an empty slow list: its place becomes free. -/
theorem freeChunk_fast_nil (h : Represents C s (A ++ n :: B) []) (region : ShamblesRegion) :
    Represents C (freeChunk region s n) (A ++ B) [] := by
  have hloc : s.loc n = .fast := h.loc_fast n (by simp)
  have hlists : TwoLists (s.dqMru n).links (s.dqMru n).mru (s.dqMru n).lru (A ++ B) [] :=
    h.lists.dq_left
  have hlru : (s.dqMru n).lru = none := hlists.right.head
  have hfull := h.full
  have hfree := h.free
  simp only [List.length_append, List.length_cons, List.length_nil] at hfull hfree
  have hmem : ∀ x ∈ A ++ B, s.loc x = .fast := by
    intro x hx
    apply h.loc_fast x
    simp only [List.mem_append, List.mem_cons] at hx ⊢
    tauto
  simp only [freeChunk, hloc, reduceCtorEq, if_false, hlru]
  refine ⟨hlru ▸ hlists, hmem, by simp, ?_, ?_⟩
  · simp only [List.length_append, List.length_nil]
    omega
  · show s.freeFastChunks + 1 = _
    rw [hfree]
    simp only [List.length_append]
    push_cast
    ring

/-- A fast chunk leaves and the first slow chunk takes its place. -/
theorem freeChunk_fast_cons {p : NodePtr} (h : Represents C s (A ++ n :: B) (p :: l))
    (region : ShamblesRegion) : Represents C (freeChunk region s n) (A ++ B ++ [p]) l := by
  have hloc : s.loc n = .fast := h.loc_fast n (by simp)
  have hfull := h.full
  have hfree := h.free
  simp only [List.length_append, List.length_cons] at hfull hfree
  have hdisj : ∀ x ∈ A ++ n :: B, x ≠ p := by
    intro x hx hxp
    exact h.lists.disjoint hx (by simp [hxp])
  have hpl : p ∉ l := (List.nodup_cons.1 h.lists.right.circular.nodup).1
  have hpm : p ∉ A ++ B := by
    intro hp
    refine hdisj p ?_ rfl
    simp only [List.mem_append, List.mem_cons] at hp ⊢
    tauto
  have hone : TwoLists (s.dqMru n).links (s.dqMru n).mru (s.dqMru n).lru (A ++ B) ([] ++ p :: l) :=
    h.lists.dq_left
  have hlru : (s.dqMru n).lru = some p := hone.right.head
  have htwo := hone.symm.dq_left.symm.enq_left hpm hpl
  -- Whether the promotion is followed by an `mbind` does not matter for the lists.
  simp only [freeChunk, hloc, reduceCtorEq, if_false, hlru]
  refine congr (s := ((((s.dqMru n).dqLru p).setLoc p .fast).enqMru p)) ⟨htwo, ?_, ?_, ?_, ?_⟩
    ?_ ?_ ?_ ?_ ?_
  · intro x hx
    by_cases hxp : x = p
    · simp [State.enqMru, State.setLoc, hxp]
    · have hxm : x ∈ A ++ n :: B := by
        simp only [List.mem_append, List.mem_cons] at hx ⊢
        tauto
      simpa [State.enqMru, State.setLoc, State.dqLru, State.dqMru, hxp] using h.loc_fast x hxm
  · intro x hx
    have hxp : x ≠ p := fun hxp => hpl (hxp ▸ hx)
    simpa [State.enqMru, State.setLoc, State.dqLru, State.dqMru, hxp] using
      h.loc_slow x (by simp [hx])
  · simp only [List.length_append, List.length_cons, List.length_nil]
    omega
  · show s.freeFastChunks = _
    rw [hfree]
    simp only [List.length_append, List.length_cons, List.length_nil]
    push_cast
    ring
  all_goals split <;> simp [State.emit, State.enqMru]

/-- One iteration of the release loop deletes its chunk from the recency list. -/
theorem freeChunk_spec (h : Represents C s m l) (region : ShamblesRegion) (hn : n ∈ m ++ l) :
    ∃ m' l', Represents C (freeChunk region s n) m' l' ∧ m' ++ l' = (m ++ l).erase n := by
  by_cases hm : n ∈ m
  · rcases List.append_of_mem hm with ⟨A, B, rfl⟩
    have hnd : (A ++ n :: (B ++ l)).Nodup := by
      simpa using h.lists.nodup
    have herase : (A ++ n :: B ++ l).erase n = A ++ B ++ l := by
      simpa using erase_middle hnd
    rw [herase]
    cases l with
    | nil => exact ⟨A ++ B, [], h.freeChunk_fast_nil region, rfl⟩
    | cons p l => exact ⟨A ++ B ++ [p], l, h.freeChunk_fast_cons region, by simp⟩
  · have hl : n ∈ l := by simpa [hm] using hn
    rcases List.append_of_mem hl with ⟨A, B, rfl⟩
    refine ⟨m, A ++ B, h.freeChunk_slow region, ?_⟩
    rw [List.erase_append_right _ hm, erase_middle h.lists.right.circular.nodup]

/-- The whole release loop. -/
theorem freeChunks_spec (region : ShamblesRegion) {ns : List NodePtr} :
    ∀ {s : State} {m l : List NodePtr}, Represents C s m l → ns.Nodup → (∀ n ∈ ns, n ∈ m ++ l) →
      ∃ m' l', Represents C (ns.foldl (freeChunk region) s) m' l' ∧
        m' ++ l' = (m ++ l).filter (fun n => n ∉ ns) := by
  induction ns with
  | nil =>
      intro s m l h _ _
      exact ⟨m, l, h, by simp⟩
  | cons n rest ih =>
      intro s m l h hnd hmem
      rcases h.freeChunk_spec region (hmem n (by simp)) with ⟨m₁, l₁, h₁, heq⟩
      have hndL : (m ++ l).Nodup := h.lists.nodup
      have hrest : ∀ x ∈ rest, x ∈ m₁ ++ l₁ := by
        intro x hx
        have hxn : x ≠ n := fun hxn => (List.nodup_cons.1 hnd).1 (hxn ▸ hx)
        rw [heq]
        exact (List.mem_erase_of_ne hxn).2 (hmem x (by simp [hx]))
      rcases ih h₁ hnd.of_cons hrest with ⟨m₂, l₂, h₂, heq₂⟩
      refine ⟨m₂, l₂, h₂, ?_⟩
      rw [heq₂, heq, hndL.erase_eq_filter, List.filter_filter]
      apply List.filter_congr
      intro x _
      simp only [List.mem_cons, not_or, Bool.decide_and]
      by_cases hxn : x = n <;> simp [hxn]

/-! ## Samples -/

theorem sampleFast_spec (h : Represents C s (A ++ n :: B) l) (addr : Nat) :
    Represents C (sampleFast s addr n) (n :: (A ++ B)) l := by
  have hnAB : n ∉ A ++ B := notMem_of_nodup_middle h.lists.left.circular.nodup
  have hnl : n ∉ l := h.lists.disjoint (by simp)
  have hlists := h.lists.dq_left.push_left hnAB hnl
  refine ⟨hlists, ?_, h.loc_slow, ?_, ?_⟩
  · intro x hx
    apply h.loc_fast x
    simp only [List.mem_append, List.mem_cons] at hx ⊢
    tauto
  · have hfull := h.full
    simp only [List.length_append, List.length_cons] at hfull ⊢
    omega
  · have hfree := h.free
    simp only [List.length_append, List.length_cons] at hfree ⊢
    show s.freeFastChunks = _
    rw [hfree]
    push_cast
    ring

/-- After `node` has left `lru`, the node before the head of `mru` is the last fast one. -/
theorem victim_eq {v : NodePtr} (h : Represents C s (m ++ [v]) (A ++ n :: B)) :
    ∃ head, (s.dqLru n).mru = some head ∧ (s.dqLru n).links.prev head = v := by
  have hone : TwoLists (s.dqLru n).links (s.dqLru n).mru (s.dqLru n).lru (m ++ [v]) (A ++ B) :=
    h.lists.symm.dq_left.symm
  have hcirc := hone.left.circular
  cases m with
  | nil => exact ⟨v, hone.left.head, hcirc.prev_singleton⟩
  | cons a m' => exact ⟨a, hone.left.head, hcirc.prev_concat⟩

/-- A slow chunk changes places with the last fast one. -/
theorem sampleSlow_spec {v : NodePtr} (h : Represents C s (m ++ [v]) (A ++ n :: B))
    (addr : Nat) :
    Represents C (sampleSlow (s.dqLru n) addr n v) (n :: m) (v :: (A ++ B)) := by
  rcases h.lists.exchange_notMem with ⟨hvn, hvm, hnm, hvAB, hnAB⟩
  have hone : TwoLists (s.dqLru n).links (s.dqLru n).mru (s.dqLru n).lru (m ++ v :: []) (A ++ B) :=
    h.lists.symm.dq_left.symm
  have htwo := hone.dq_left
  rw [List.append_nil] at htwo
  have hthree := (htwo.symm.push_left hvAB hvm).symm
  have hnvl : n ∉ v :: (A ++ B) := by
    simpa [Ne.symm hvn] using hnAB
  have hfour := hthree.push_left hnm hnvl
  refine ⟨hfour, ?_, ?_, ?_, ?_⟩
  · intro x hx
    have hxv : x ≠ v := by
      rintro rfl
      rcases List.mem_cons.1 hx with hxn | hxm
      · exact hvn hxn
      · exact hvm hxm
    by_cases hxn : x = n
    · simp [sampleSlow, State.pushMru, State.setLoc, hxn, Ne.symm hvn]
    · have hxm : x ∈ m := by simpa [hxn] using hx
      simpa [sampleSlow, State.pushMru, State.pushLru, State.setLoc, State.emit, State.dqMru,
        State.dqLru, hxn, hxv] using h.loc_fast x (by simp [hxm])
  · intro x hx
    have hxn : x ≠ n := fun hxn => hnvl (hxn ▸ hx)
    by_cases hxv : x = v
    · simp [sampleSlow, State.pushMru, State.setLoc, hxv]
    · have hxl : x ∈ A ++ n :: B := by
        simp only [List.mem_append, List.mem_cons] at hx ⊢
        tauto
      simpa [sampleSlow, State.pushMru, State.pushLru, State.setLoc, State.emit, State.dqMru,
        State.dqLru, hxn, hxv] using h.loc_slow x hxl
  · have hfull := h.full
    simp only [List.length_append, List.length_cons, List.length_nil] at hfull ⊢
    omega
  · have hfree := h.free
    simp only [List.length_append, List.length_cons, List.length_nil] at hfree ⊢
    show s.freeFastChunks = _
    rw [hfree]

/-- The fast list is full when there is a slow node, so it has a last node, which `mru->prev`
finds. -/
theorem slow_split (h : Represents C s m l) (hC : 1 ≤ C) (hn : n ∈ l) :
    ∃ m₀ v A B head, m = m₀ ++ [v] ∧ l = A ++ n :: B ∧ (s.dqLru n).mru = some head ∧
      (s.dqLru n).links.prev head = v := by
  have hlen : m.length = C := h.length_eq_of_mem hn
  rcases List.append_of_mem hn with ⟨A, B, rfl⟩
  rcases List.eq_nil_or_concat' m with rfl | ⟨m₀, v, rfl⟩
  · rw [List.length_nil] at hlen
    omega
  · rcases h.victim_eq with ⟨head, hhead, hvictim⟩
    exact ⟨m₀, v, A, B, head, rfl, rfl, hhead, hvictim⟩

/-- A sample of a tracked chunk moves it to the front; no NULL head is dereferenced. -/
theorem handleSample_spec (h : Represents C s m l) (hC : 1 ≤ C) (addr : Nat)
    (hn : n ∈ m ++ l) :
    ∃ s' m' l', handleSample s addr (some n) = some s' ∧ Represents C s' m' l' ∧
      m' ++ l' = n :: (m ++ l).erase n := by
  by_cases hm : n ∈ m
  · rcases List.append_of_mem hm with ⟨A, B, rfl⟩
    have hnd : (A ++ n :: (B ++ l)).Nodup := by
      simpa using h.lists.nodup
    have herase : (A ++ n :: B ++ l).erase n = A ++ B ++ l := by
      simpa using erase_middle hnd
    have hloc : s.loc n = .fast := h.loc_fast n hm
    refine ⟨_, n :: (A ++ B), l, by simp [handleSample, hloc], h.sampleFast_spec addr, ?_⟩
    rw [herase]
    simp
  · have hl : n ∈ l := by simpa [hm] using hn
    have hloc : s.loc n = .slow := h.loc_slow n hl
    rcases h.slow_split hC hl with ⟨m₀, v, A, B, head, rfl, rfl, hhead, hvictim⟩
    refine ⟨_, n :: m₀, v :: (A ++ B), by simp [handleSample, hloc, hhead, hvictim],
      h.sampleSlow_spec addr, ?_⟩
    rw [List.erase_append_right _ hm, erase_middle h.lists.right.circular.nodup]
    simp

end Represents

/-! ## Live regions -/

/-- A release has an outcome only for a live region. -/
theorem of_step_free {s s' : State} {p : RegionPtr} (hs' : step s (.free p) = some s') :
    ∃ region, s.regions.lookup p = some region ∧ freeRegion s p region = s' := by
  cases hregion : s.regions.lookup p with
  | none => simp [step, hregion] at hs'
  | some region => exact ⟨region, rfl, by simpa [step, hregion] using hs'⟩

/-- None of the list operations touches the set of live regions. -/
theorem placeFast_regions (ns : List NodePtr) :
    ∀ s : State, (placeFast s ns).1.regions = s.regions := by
  induction ns with
  | nil =>
      intro s
      rfl
  | cons n rest ih =>
      intro s
      by_cases hfree : s.freeFastChunks = 0
      · simp [placeFast, hfree]
      · simp [placeFast, hfree, ih, State.emit, State.enqMru, State.setLoc]

theorem placeSlow_regions (ns : List NodePtr) :
    ∀ s : State, (placeSlow s ns).regions = s.regions := by
  induction ns with
  | nil =>
      intro s
      rfl
  | cons n rest ih =>
      intro s
      simp [placeSlow, ih, State.emit, State.enqLru, State.setLoc]

theorem freeChunk_regions (region : ShamblesRegion) (s : State) (n : NodePtr) :
    (freeChunk region s n).regions = s.regions := by
  simp only [freeChunk]
  split
  · rfl
  · split
    · rfl
    · split <;> rfl

theorem freeChunks_regions (region : ShamblesRegion) (ns : List NodePtr) :
    ∀ s : State, (ns.foldl (freeChunk region) s).regions = s.regions := by
  induction ns with
  | nil =>
      intro s
      rfl
  | cons n rest ih =>
      intro s
      simp [ih, freeChunk_regions]

theorem allocRegion_regions (s : State) (p : RegionPtr) (region : ShamblesRegion) :
    (allocRegion s p region).regions = (p, region) :: s.regions := by
  simp [allocRegion, placeSlow_regions, placeFast_regions, initNodes]

theorem freeRegion_regions (s : State) (p : RegionPtr) (region : ShamblesRegion) :
    (freeRegion s p region).regions = s.regions.filter (fun r => r.1 ≠ p) := by
  simp [freeRegion, freeChunks_regions, State.emit]

theorem handleSample_regions {s s' : State} {addr : Nat} {chunk : Option NodePtr}
    (h : handleSample s addr chunk = some s') : s'.regions = s.regions := by
  cases chunk with
  | none =>
      obtain rfl : s.emit [.logSample addr ⟨false, false⟩] = s' := by simpa [handleSample] using h
      rfl
  | some n =>
      simp only [handleSample] at h
      split at h
      · obtain rfl := Option.some.inj h
        rfl
      · split at h
        · cases h
        · obtain rfl := Option.some.inj h
          rfl

/-! ## Runs -/

/-- The recency list `L`, held in two lists, of exactly the chunks of the live regions. -/
structure Refines (C : Nat) (s : State) (L : List NodePtr) : Prop where
  rep : ∃ m l, Represents C s m l ∧ m ++ l = L
  live : ∀ n, n ∈ L ↔ LiveNode s.regions n

namespace Refines

variable {C : Nat} {s s' : State} {L : List NodePtr} {p : RegionPtr} {region : ShamblesRegion}

theorem init (hC : C ≤ INT_MAX) : Refines C (lruInit C) [] := by
  refine ⟨⟨[], [], ⟨⟨⟨rfl, Circular.nil _⟩, ⟨rfl, Circular.nil _⟩, by simp⟩, by simp, by simp,
    by simp, ?_⟩, rfl⟩, ?_⟩
  · show toInt C = _
    simp [toInt_of_le hC]
  · intro n
    simp [LiveNode, lruInit]

theorem alloc (h : Refines C s L) (hfresh : s.regions.lookup p = none) :
    Refines C (allocRegion s p region) (L ++ nodesOf p region) := by
  rcases h.rep with ⟨m, l, hrep, rfl⟩
  have hnew : ∀ n ∈ nodesOf p region, n ∉ m ++ l := by
    intro n hn hmem
    rcases (h.live n).1 hmem with ⟨r, hr, _⟩
    rw [(mem_nodesOf.1 hn).1, hfresh] at hr
    cases hr
  have hinit : Represents C (initNodes { s with regions := (p, region) :: s.regions } p region) m l :=
    hrep.congr rfl rfl rfl (fun _ _ => rfl) rfl
  refine ⟨hinit.place_all (nodup_nodesOf p region) hnew, ?_⟩
  intro n
  rw [List.mem_append, mem_nodesOf, h.live n]
  simp only [LiveNode, allocRegion_regions, lookup_cons_eq]
  by_cases hnp : n.region = p
  · simp [hnp, hfresh]
  · simp [hnp]

theorem mem_of_nodesOf (h : Refines C s L) (hlive : s.regions.lookup p = some region) :
    ∀ n ∈ nodesOf p region, n ∈ L := by
  intro n hn
  rcases mem_nodesOf.1 hn with ⟨hnp, hidx⟩
  exact (h.live n).2 ⟨region, by rw [hnp, hlive], hidx⟩

/-- In the recency list the nodes of `p` are exactly the nodes of its region. -/
theorem filter_nodesOf (h : Refines C s L) (hlive : s.regions.lookup p = some region) :
    L.filter (fun n => n ∉ nodesOf p region) = L.filter (fun n => n.region ≠ p) := by
  apply List.filter_congr
  intro n hn
  rcases (h.live n).1 hn with ⟨r, hr, hidx⟩
  by_cases hnp : n.region = p
  · rw [hnp, hlive] at hr
    obtain rfl := Option.some.inj hr
    simp [mem_nodesOf, hnp, hidx]
  · simp [mem_nodesOf, hnp]

theorem free (h : Refines C s L) (hlive : s.regions.lookup p = some region) :
    Refines C (freeRegion s p region) (L.filter (fun n => n.region ≠ p)) := by
  rcases h.rep with ⟨m, l, hrep, rfl⟩
  rcases (hrep.emit (unbind region)).freeChunks_spec region (nodup_nodesOf p region)
    (h.mem_of_nodesOf hlive) with ⟨m', l', hrep', heq⟩
  rw [h.filter_nodesOf hlive] at heq
  refine ⟨⟨m', l', hrep'.congr rfl rfl rfl (fun _ _ => rfl) rfl, heq⟩, ?_⟩
  intro n
  simp only [LiveNode, freeRegion_regions, lookup_filter_ne, List.mem_filter, h.live n]
  by_cases hnp : n.region = p
  · simp [hnp]
  · simp [hnp]

theorem sample (h : Refines C s L) (hC : 1 ≤ C) (addr : Nat) {n : NodePtr} (hn : LiveNode s.regions n) :
    ∃ s', handleSample s addr (some n) = some s' ∧ Refines C s' (n :: L.erase n) := by
  rcases h.rep with ⟨m, l, hrep, rfl⟩
  have hmem : n ∈ m ++ l := (h.live n).2 hn
  rcases hrep.handleSample_spec hC addr hmem with ⟨s', m', l', hs', hrep', heq⟩
  refine ⟨s', hs', ⟨m', l', hrep', heq⟩, ?_⟩
  have hperm : (m ++ l).Perm (n :: (m ++ l).erase n) := List.perm_cons_erase hmem
  intro x
  rw [← hperm.mem_iff, h.live x]
  simp [LiveNode, handleSample_regions hs']

/-- With no fast memory `mru` is NULL when a sample dereferences it. -/
theorem capacity_pos (h : Refines C s L) {addr : Nat} {n : NodePtr} (hn : LiveNode s.regions n)
    (hs' : handleSample s addr (some n) = some s') : 1 ≤ C := by
  rcases h.rep with ⟨m, l, hrep, rfl⟩
  by_contra hC
  have hm : m = [] := by
    have hfull := hrep.full
    exact List.length_eq_zero_iff.1 (by omega)
  subst hm
  have hslow : s.loc n = .slow := hrep.loc_slow n ((h.live n).2 hn)
  have hmru : (s.dqLru n).mru = none := hrep.lists.left.head
  simp [handleSample, hslow, hmru] at hs'

/-- Every enabled event has an outcome, and the outcome is the abstract step. -/
theorem step (h : Refines C s L) (hC : 1 ≤ C) {e : Event} (he : Enabled s.regions e) :
    ∃ s', step s e = some s' ∧ Refines C s' (recencyStep L e) := by
  cases e with
  | alloc p region => exact ⟨_, rfl, h.alloc he.1⟩
  | free p =>
      rcases Option.ne_none_iff_exists'.1 he with ⟨region, hregion⟩
      exact ⟨freeRegion s p region, by simp [Lru.step, hregion], h.free hregion⟩
  | sample addr chunk =>
      cases chunk with
      | none =>
          refine ⟨_, rfl, ?_, h.live⟩
          rcases h.rep with ⟨m, l, hrep, heq⟩
          exact ⟨m, l, hrep.emit _, heq⟩
      | some n => exact h.sample hC addr he

/-- The same for every event that has an outcome, whatever the capacity: without fast memory a
sample has none. -/
theorem step_of_some (h : Refines C s L) {e : Event} (he : Enabled s.regions e)
    (hs' : Lru.step s e = some s') : Refines C s' (recencyStep L e) := by
  cases e with
  | alloc p region =>
      obtain rfl : allocRegion s p region = s' := Option.some.inj hs'
      exact h.alloc he.1
  | free p =>
      rcases of_step_free hs' with ⟨region, hregion, rfl⟩
      exact h.free hregion
  | sample addr chunk =>
      cases chunk with
      | none =>
          obtain rfl : s.emit [.logSample addr ⟨false, false⟩] = s' := Option.some.inj hs'
          rcases h.rep with ⟨m, l, hrep, heq⟩
          exact ⟨⟨m, l, hrep.emit _, heq⟩, h.live⟩
      | some n =>
          have hC : 1 ≤ C := h.capacity_pos he hs'
          rcases h.sample hC addr he with ⟨s'', hs'', hrefines⟩
          obtain rfl : s'' = s' := Option.some.inj (hs''.symm.trans hs')
          exact hrefines

theorem run (hmax : C ≤ INT_MAX) {es : List Event} {s : State}
    (h : Run system (lruInit C) es s) : Refines C s (recency es) := by
  refine Run.invariant (P := fun es s => Refines C s (recency es)) (init hmax) ?_ h
  intro es s e s' hs hen hst
  simpa [recency_snoc] using hs.step_of_some hen hst

end Refines

/-- What the plugin promises about its state when the recency list is `L`. -/
structure KeepsRecency (C : Nat) (s : State) (L : List NodePtr) : Prop where
  /-- `mru` followed by `lru` is `L`, the fast nodes are those of `mru`, and `mru` is as long as
  the capacity allows. -/
  lists : ∃ m l, Reads s.links s.mru m ∧ Reads s.links s.lru l ∧ m.Disjoint l ∧ m ++ l = L ∧
    (∀ n, LiveNode s.regions n → (s.loc n = .fast ↔ n ∈ m)) ∧ m.length = min C L.length ∧
    s.freeFastChunks = (C : Int) - m.length
  live : ∀ n, n ∈ L ↔ LiveNode s.regions n
  mru_ne_null : ∀ n, LiveNode s.regions n → s.loc n = .slow → s.mru ≠ none
  /-- No event that can happen next dereferences a NULL head. -/
  defined : ∀ e, Enabled s.regions e → ∃ s', step s e = some s'

/-- After every run from `lruInit` the two lists are the recency list of that run, and the next
event is defined. -/
theorem lru_keeps_recency {C : Nat} (hC : 1 ≤ C) (hmax : C ≤ INT_MAX) {es : List Event}
    {s : State} (h : Run system (lruInit C) es s) : KeepsRecency C s (recency es) := by
  have href : Refines C s (recency es) := Refines.run hmax h
  rcases href.rep with ⟨m, l, hrep, heq⟩
  have hmem : ∀ n, LiveNode s.regions n → n ∈ m ++ l := by
    intro n hn
    rw [heq]
    exact (href.live n).2 hn
  refine ⟨⟨m, l, hrep.lists.left, hrep.lists.right, hrep.lists.disjoint, heq, ?_, ?_, hrep.free⟩,
    href.live, ?_, ?_⟩
  · intro n hn
    exact hrep.mem_fast_iff (hmem n hn)
  · rw [← heq, List.length_append]
    exact hrep.full
  · intro n hn hslow hnull
    -- A slow node sits behind a full, hence non-empty, fast list.
    have hnl : n ∈ l := by
      rcases List.mem_append.1 (hmem n hn) with hm | hl
      · simp [hrep.loc_fast n hm] at hslow
      · exact hl
    have hlen : m.length = C := hrep.length_eq_of_mem hnl
    have hnil : m = [] := List.head?_eq_none_iff.1 (hrep.lists.left.head.symm.trans hnull)
    simp [hnil] at hlen
    omega
  · intro e he
    rcases href.step hC he with ⟨s', hs', _⟩
    exact ⟨s', hs'⟩

/-- One fast place and two regions: the second is sampled (a miss that evicts the first chunk),
then the first region is released, which promotes nothing since its chunks are slow. -/
theorem lru_keeps_recency_two_regions :
    ∃ s, Run system (lruInit 1)
        [.alloc 1 ⟨0x18000, [⟨0x18000, 0x10000⟩, ⟨0x28000, 0x10000⟩], 0x900⟩,
          .alloc 2 ⟨0x48000, [⟨0x48000, 0x10000⟩], 0x800⟩,
          .sample 0x48010 (some ⟨2, 0⟩), .free 1] s ∧
      KeepsRecency 1 s [⟨2, 0⟩] := by
  rcases Run.of_exec system (lruInit 1)
    [.alloc 1 ⟨0x18000, [⟨0x18000, 0x10000⟩, ⟨0x28000, 0x10000⟩], 0x900⟩,
      .alloc 2 ⟨0x48000, [⟨0x48000, 0x10000⟩], 0x800⟩,
      .sample 0x48010 (some ⟨2, 0⟩), .free 1] (by decide) with ⟨s, _, hrun⟩
  exact ⟨s, hrun, lru_keeps_recency (by decide) (by decide) hrun⟩

end Lru
end Shambles
