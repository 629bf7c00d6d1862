import Shambles.Lru.Refinement

/-!
# Placement — page bindings of the LRU plugin

`loc` is what the plugin believes about a chunk; the `mbind` calls in the trace are what it asked
the kernel for.  They are issued in five places under conditions of their own.  Four of them agree
with `loc`; the promotion on release does not: `bindFast` is called only when the promoted chunk
descriptor lies behind the descriptor array of the released region, so a chunk whose descriptors
happen to be allocated at lower addresses is tagged fast and stays bound to slow memory.

`StepOk` is the condition under which the comparison does no harm, read off the state before
the event.  In runs that meet it (and whose regions do not overlap) the tag and the last binding
agree for every byte of every live chunk.
-/

namespace Shambles
namespace Lru

open CircularList AssocList Structures Plugins

/-- The mask that belongs to a tag. -/
def policyOf : MemLoc → Policy
  | .fast => .fastmask
  | .slow => .slowmask

/-- Every byte of the chunk of `n` was last bound to the tier of its tag. -/
def Agree (s : State) (n : NodePtr) : Prop :=
  ∀ a, (s.chunk n).chunk.Covers a → bindingAt s.trace a = some (policyOf (s.loc n))

/-- The two chunks share no byte. -/
def Apart (c d : ShamblesChunk) : Prop :=
  ∀ a, ¬ (c.Covers a ∧ d.Covers a)

theorem Apart.symm {c d : ShamblesChunk} (h : Apart c d) : Apart d c :=
  fun a hboth => h a ⟨hboth.2, hboth.1⟩

/-! ## One binding at a time -/

/-- A node keeps its agreement when neither its tag nor the bytes of its chunk are touched. -/
theorem Agree.of_unchanged {s s' : State} {n : NodePtr} (h : Agree s n)
    (hchunk : s'.chunk n = s.chunk n) (hloc : s'.loc n = s.loc n)
    (htrace : ∀ a, (s.chunk n).chunk.Covers a → bindingAt s'.trace a = bindingAt s.trace a) :
    Agree s' n := by
  intro a ha
  rw [hchunk] at ha
  rw [htrace a ha, hloc]
  exact h a ha

/-- Tagging a node and binding its chunk accordingly. -/
theorem agree_bind {s s' : State} {n : NodePtr} (loc : MemLoc) {dir : Direction}
    (hchunk : s'.chunk n = s.chunk n) (hloc : s'.loc n = loc)
    (htrace : s'.trace = s.trace ++
      [.mbind (s.chunk n).chunk.start (s.chunk n).chunk.size (policyOf loc),
        .logMigration dir (s.chunk n).chunk.start (s.chunk n).chunk.size]) :
    Agree s' n := by
  intro a ha
  rw [hchunk] at ha
  rw [htrace, bindingAt_bind, if_pos ha, hloc]

/-- Binding the chunk of `n` does not disturb a node whose chunk is apart from it. -/
theorem Agree.bind_other {s s' : State} {n x : NodePtr} {policy : Policy} {dir : Direction}
    (h : Agree s x) (hapart : Apart (s.chunk x).chunk (s.chunk n).chunk)
    (hchunk : s'.chunk x = s.chunk x) (hloc : s'.loc x = s.loc x)
    (htrace : s'.trace = s.trace ++
      [.mbind (s.chunk n).chunk.start (s.chunk n).chunk.size policy,
        .logMigration dir (s.chunk n).chunk.start (s.chunk n).chunk.size]) :
    Agree s' x := by
  refine h.of_unchanged hchunk hloc ?_
  intro a ha
  have hout : ¬ (s.chunk n).chunk.Covers a := fun hn => hapart a ⟨ha, hn⟩
  rw [htrace, bindingAt_bind, if_neg hout]

/-! ## Allocation -/

theorem placeSlow_chunk (ns : List NodePtr) : ∀ s : State, (placeSlow s ns).chunk = s.chunk := by
  induction ns with
  | nil =>
      intro s
      rfl
  | cons n rest ih =>
      intro s
      simp [placeSlow, ih, State.emit, State.enqLru, State.setLoc]

theorem placeFast_chunk (ns : List NodePtr) : ∀ s : State, (placeFast s ns).1.chunk = s.chunk := by
  induction ns with
  | nil =>
      intro s
      rfl
  | cons n rest ih =>
      intro s
      by_cases hfree : s.freeFastChunks = 0
      · simp [placeFast, hfree]
      · simp [placeFast, hfree, ih, State.emit, State.enqMru, State.setLoc]

/-- In the middle of an allocation: the nodes `N` agree already, the nodes `ns` are still to be
placed, and no two of all these chunks overlap. -/
structure Placing (s : State) (N : NodePtr → Prop) (ns : List NodePtr) : Prop where
  agree : ∀ x, N x → Agree s x
  nodup : ns.Nodup
  new : ∀ x, N x → x ∉ ns
  apart : ∀ x y, N x ∨ x ∈ ns → y ∈ ns → x ≠ y → Apart (s.chunk x).chunk (s.chunk y).chunk

namespace Placing

variable {s s' : State} {N : NodePtr → Prop} {n : NodePtr} {rest : List NodePtr}

/-- Placing the next node moves it over to the nodes that agree. -/
theorem one (h : Placing s N (n :: rest)) (loc : MemLoc) {dir : Direction}
    (hchunk : s'.chunk = s.chunk) (hloc : s'.loc = Function.update s.loc n loc)
    (htrace : s'.trace = s.trace ++
      [.mbind (s.chunk n).chunk.start (s.chunk n).chunk.size (policyOf loc),
        .logMigration dir (s.chunk n).chunk.start (s.chunk n).chunk.size]) :
    Placing s' (fun x => N x ∨ x = n) rest := by
  refine ⟨?_, h.nodup.of_cons, ?_, ?_⟩
  · rintro x (hx | rfl)
    · have hxn : x ≠ n := fun hxn => h.new x hx (by simp [hxn])
      refine (h.agree x hx).bind_other (h.apart x n (Or.inl hx) (by simp) hxn) ?_ ?_ htrace
      · rw [hchunk]
      · simp [hloc, hxn]
    · refine agree_bind loc ?_ ?_ htrace
      · rw [hchunk]
      · simp [hloc]
  · rintro x (hx | rfl)
    · exact fun hmem => h.new x hx (by simp [hmem])
    · exact (List.nodup_cons.1 h.nodup).1
  · intro x y hx hy hxy
    rw [hchunk]
    refine h.apart x y ?_ (by simp [hy]) hxy
    rcases hx with (hx | rfl) | hx
    · exact Or.inl hx
    · exact Or.inr (by simp)
    · exact Or.inr (by simp [hx])

theorem mem_of_cons {x : NodePtr} (hx : N x ∨ x ∈ n :: rest) : (N x ∨ x = n) ∨ x ∈ rest := by
  rcases hx with hx | hx
  · exact Or.inl (Or.inl hx)
  · rcases List.mem_cons.1 hx with rfl | hx
    · exact Or.inl (Or.inr rfl)
    · exact Or.inr hx

theorem placeSlow {ns : List NodePtr} :
    ∀ {s : State} {N : NodePtr → Prop}, Placing s N ns →
      ∀ x, N x ∨ x ∈ ns → Agree (placeSlow s ns) x := by
  induction ns with
  | nil =>
      intro s N h x hx
      exact h.agree x (by simpa using hx)
  | cons n rest ih =>
      intro s N h x hx
      have hnext : Placing (((s.setLoc n .slow).enqLru n).emit (bindSlowAlloc (s.chunk n).chunk))
          (fun x => N x ∨ x = n) rest := h.one .slow rfl rfl rfl
      exact ih hnext x (mem_of_cons hx)

/-- Both loops of the allocation branch. -/
theorem place {ns : List NodePtr} :
    ∀ {s : State} {N : NodePtr → Prop}, Placing s N ns →
      ∀ x, N x ∨ x ∈ ns → Agree (Lru.placeSlow (placeFast s ns).1 (placeFast s ns).2) x := by
  induction ns with
  | nil =>
      intro s N h x hx
      exact h.agree x (by simpa using hx)
  | cons n rest ih =>
      intro s N h x hx
      by_cases hfree : s.freeFastChunks = 0
      · simpa [placeFast, hfree] using h.placeSlow x hx
      · have hnext : Placing
            { ((s.setLoc n .fast).enqMru n).emit (bindFastAlloc (s.chunk n).chunk) with
              freeFastChunks := s.freeFastChunks - 1 }
            (fun x => N x ∨ x = n) rest := h.one .fast rfl rfl rfl
        simp only [placeFast, ne_eq, hfree, not_false_eq_true, if_true]
        exact ih hnext x (mem_of_cons hx)

end Placing

/-! ## Release -/

/-- The descriptors behind which `bindFast` is called when `region` is released. -/
def BoundOnFree (region : ShamblesRegion) (s : State) (n : NodePtr) : Prop :=
  region.chunksPtr + sizeofChunk * region.nChunks < (s.chunk n).ptr

instance (region : ShamblesRegion) (s : State) (n : NodePtr) :
    Decidable (BoundOnFree region s n) :=
  inferInstanceAs (Decidable (_ < _))

/-- The node that one iteration promotes. -/
def promotion (s : State) (n : NodePtr) : Option NodePtr :=
  if s.loc n = .slow then none else (s.dqMru n).lru

theorem promotion_eq_some {s : State} {n p : NodePtr} :
    promotion s n = some p ↔ s.loc n ≠ .slow ∧ (s.dqMru n).lru = some p := by
  simp [promotion]

/-- All that one iteration does to tags and bindings. -/
theorem freeChunk_cases (region : ShamblesRegion) (s : State) (n : NodePtr) :
    (freeChunk region s n).chunk = s.chunk ∧
      ((promotion s n = none ∧ (freeChunk region s n).loc = s.loc ∧
          (freeChunk region s n).trace = s.trace) ∨
        ∃ p, promotion s n = some p ∧
          (freeChunk region s n).loc = Function.update s.loc p .fast ∧
          (freeChunk region s n).trace =
            if BoundOnFree region s p then s.trace ++ bindFast (s.chunk p).chunk else s.trace) := by
  by_cases hloc : s.loc n = .slow
  · simp [promotion, freeChunk, hloc, State.dqLru]
  · cases hlru : (s.dqMru n).lru with
    | none =>
        simp only [promotion, freeChunk, hloc, if_false, hlru]
        exact ⟨rfl, Or.inl ⟨trivial, rfl, rfl⟩⟩
    | some p =>
        simp only [promotion, freeChunk, hloc, if_false, hlru]
        refine ⟨?_, Or.inr ⟨p, rfl, ?_, ?_⟩⟩
        · split <;> rfl
        · split <;> rfl
        · by_cases hbound : BoundOnFree region s p
          · have hgt : region.chunksPtr + sizeofChunk * region.nChunks < (s.chunk p).ptr := hbound
            simp [hbound, hgt, State.emit, State.enqMru, State.setLoc, State.dqLru, State.dqMru]
          · have hle : ¬ region.chunksPtr + sizeofChunk * region.nChunks < (s.chunk p).ptr := hbound
            simp [hbound, hle, State.enqMru, State.setLoc, State.dqLru, State.dqMru]

theorem freeChunks_chunk (region : ShamblesRegion) (ns : List NodePtr) :
    ∀ s : State, (ns.foldl (freeChunk region) s).chunk = s.chunk := by
  induction ns with
  | nil =>
      intro s
      rfl
  | cons n rest ih =>
      intro s
      rw [List.foldl_cons, ih]
      exact (freeChunk_cases region s n).1

namespace Represents

variable {C : Nat} {s : State} {m l : List NodePtr}

/-- One iteration keeps the agreement of every node `x` that stays, provided the promoted node is
bound if it is one of those. -/
theorem freeChunk_agree {n x : NodePtr} {region : ShamblesRegion} (hx : Agree s x)
    (hbound : ∀ p, (s.dqMru n).lru = some p → s.loc n ≠ .slow → x = p → BoundOnFree region s p)
    (hapart : ∀ p, (s.dqMru n).lru = some p → x ≠ p →
      Apart (s.chunk x).chunk (s.chunk p).chunk) :
    Agree (freeChunk region s n) x := by
  rcases freeChunk_cases region s n with ⟨hchunk, ⟨-, hloc, htrace⟩ | ⟨p, hp, hloc, htrace⟩⟩
  · refine hx.of_unchanged ?_ ?_ ?_
    · rw [hchunk]
    · rw [hloc]
    · intro a _
      rw [htrace]
  · rcases promotion_eq_some.1 hp with ⟨hn, hp⟩
    by_cases hxp : x = p
    · subst hxp
      rw [if_pos (hbound x hp hn rfl)] at htrace
      refine agree_bind .fast ?_ ?_ htrace
      · rw [hchunk]
      · simp [hloc]
    · have hloc' : (freeChunk region s n).loc x = s.loc x := by simp [hloc, hxp]
      by_cases hb : BoundOnFree region s p
      · rw [if_pos hb] at htrace
        exact hx.bind_other (hapart p hp hxp) (by rw [hchunk]) hloc' htrace
      · rw [if_neg hb] at htrace
        refine hx.of_unchanged (by rw [hchunk]) hloc' ?_
        intro a _
        rw [htrace]

/-- A node that is promoted, and stays, is among the first `C` of the nodes that stay. -/
theorem mem_take_of_promoted {m' l' N : List NodePtr} {p : NodePtr} {s' : State}
    {keep : NodePtr → Bool} (h : Represents C s' m' l') (hN : N = (m' ++ l').filter keep)
    (hp : p ∈ N) (hfast : s'.loc p = .fast) : p ∈ N.take C := by
  have hmem : p ∈ m' ++ l' ∧ keep p = true := by
    rw [hN] at hp
    exact List.mem_filter.1 hp
  have hpm : p ∈ m' := (h.mem_fast_iff hmem.1).1 hfast
  have hlen : (m'.filter keep).length ≤ C := by
    have hle := List.length_filter_le keep m'
    have hfull := h.full
    omega
  have hpre : p ∈ (m'.filter keep).take C := by
    rw [List.take_of_length_le hlen]
    exact List.mem_filter.2 ⟨hpm, hmem.2⟩
  rw [hN, List.filter_append, List.take_append]
  exact List.mem_append_left _ hpre

/-- Tags only change from slow to fast. -/
theorem slow_of_freeChunk_slow {region : ShamblesRegion} {n y : NodePtr}
    (hy : (freeChunk region s n).loc y = .slow) : s.loc y = .slow := by
  rcases (freeChunk_cases region s n).2 with ⟨_, hloc, _⟩ | ⟨p, _, hloc, _⟩
  · rwa [hloc] at hy
  · by_cases hyp : y = p
    · simp [hloc, hyp] at hy
    · simpa [hloc, hyp] using hy

theorem mem_of_lru_head (h : Represents C s m l) {n p : NodePtr} (hp : (s.dqMru n).lru = some p) :
    p ∈ l := by
  have hhead : some p = l.head? := hp.symm.trans h.lists.right.head
  exact List.mem_of_head? hhead.symm

/-- The head of the slow list is tagged slow before and fast after the promotion. -/
theorem promoted_fast (h : Represents C s m l) (region : ShamblesRegion) {n p : NodePtr}
    (hn : n ∈ m ++ l) (hp : (s.dqMru n).lru = some p) (hne : s.loc n ≠ .slow) :
    (freeChunk region s n).loc p = .fast := by
  have hpl := h.mem_of_lru_head hp
  have hnm : n ∈ m := by
    rcases List.mem_append.1 hn with hm | hl
    · exact hm
    · exact absurd (h.loc_slow n hl) hne
  rcases List.append_of_mem hnm with ⟨A, B, rfl⟩
  cases l with
  | nil => cases hpl
  | cons q l =>
      obtain rfl : p = q := by
        simpa using hp.symm.trans h.lists.right.head
      exact (h.freeChunk_fast_cons region).loc_fast p (by simp)

/-- The release loop; the condition on promoted nodes is handed on from one iteration to the
next. -/
theorem freeChunks_agree (region : ShamblesRegion) {ns : List NodePtr} :
    ∀ {s : State} {m l : List NodePtr}, Represents C s m l → ns.Nodup → (∀ n ∈ ns, n ∈ m ++ l) →
      (∀ x ∈ ((m ++ l).filter (fun n => n ∉ ns)).take C, s.loc x = .slow →
        BoundOnFree region s x) →
      (∀ x ∈ m ++ l, ∀ y ∈ m ++ l, x ≠ y → Apart (s.chunk x).chunk (s.chunk y).chunk) →
      (∀ x ∈ (m ++ l).filter (fun n => n ∉ ns), Agree s x) →
      ∀ x ∈ (m ++ l).filter (fun n => n ∉ ns), Agree (ns.foldl (freeChunk region) s) x := by
  induction ns with
  | nil =>
      intro s m l _ _ _ _ _ hagree x hx
      exact hagree x hx
  | cons n rest ih =>
      intro s m l h hnd hmem hbound hapart hagree x hx
      have hn : n ∈ m ++ l := hmem n (by simp)
      rcases h.freeChunk_spec region hn with ⟨m₁, l₁, h₁, heq⟩
      have hchunk := (freeChunk_cases region s n).1
      have hsame : (m₁ ++ l₁).filter (fun x => x ∉ rest) =
          (m ++ l).filter (fun x => x ∉ n :: rest) := by
        rw [heq]
        exact filter_notMem_erase h.lists.nodup n rest
      have hsub : ∀ y ∈ m₁ ++ l₁, y ∈ m ++ l := by
        intro y hy
        rw [heq] at hy
        exact List.mem_of_mem_erase hy
      rw [← hsame] at hx hagree hbound
      refine ih h₁ hnd.of_cons ?_ ?_ ?_ ?_ x hx
      · intro y hy
        have hyn : y ≠ n := fun hyn => (List.nodup_cons.1 hnd).1 (hyn ▸ hy)
        rw [heq]
        exact (List.mem_erase_of_ne hyn).2 (hmem y (by simp [hy]))
      · intro y hy hyslow
        have hb := hbound y hy (slow_of_freeChunk_slow hyslow)
        simpa [BoundOnFree, hchunk] using hb
      · intro y hy z hz hyz
        rw [hchunk]
        exact hapart y (hsub y hy) z (hsub z hz) hyz
      · intro y hy
        have hyL : y ∈ m ++ l := hsub y (List.mem_filter.1 hy).1
        refine freeChunk_agree (hagree y hy) ?_ ?_
        · -- a promoted node that stays is bound on its promotion
          rintro p hp hne rfl
          have hfast := h.promoted_fast region hn hp hne
          exact hbound y (mem_take_of_promoted h₁ rfl hy hfast)
            (h.loc_slow y (h.mem_of_lru_head hp))
        · intro p hp hyp
          exact hapart y hyL p (List.mem_append_right _ (h.mem_of_lru_head hp)) hyp

/-! ## Samples -/

theorem sampleFast_agree {addr : Nat} {n x : NodePtr} (hx : Agree s x) :
    Agree (sampleFast s addr n) x := by
  refine hx.of_unchanged rfl rfl ?_
  intro a _
  exact bindingAt_logSample s.trace addr ⟨true, true⟩ a

theorem sampleSlow_agree {addr : Nat} {n v x : NodePtr} (hx : Agree s x) (hnv : n ≠ v)
    (hapart : ∀ y z, (y = x ∨ y = n ∨ y = v) → (z = x ∨ z = n ∨ z = v) → y ≠ z →
      Apart (s.chunk y).chunk (s.chunk z).chunk) :
    Agree (sampleSlow s addr n v) x := by
  have htrace : ∀ a, bindingAt (sampleSlow s addr n v).trace a =
      if (s.chunk n).chunk.Covers a then some .fastmask
      else if (s.chunk v).chunk.Covers a then some .slowmask
      else bindingAt s.trace a := by
    intro a
    have hswap := bindingAt_swap (s.trace ++ [.logSample addr ⟨true, false⟩]) (s.chunk n).chunk
      (s.chunk v).chunk a
    rw [bindingAt_logSample] at hswap
    exact hswap
  intro a ha
  have ha' : (s.chunk x).chunk.Covers a := ha
  rw [htrace a]
  by_cases hxv : x = v
  · -- The evicted node: its bytes are not those of the node that comes in.
    subst hxv
    have hout : ¬ (s.chunk n).chunk.Covers a := fun hn =>
      hapart n x (by simp) (by simp) hnv a ⟨hn, ha'⟩
    rw [if_neg hout, if_pos ha']
    simp [sampleSlow, State.pushMru, State.setLoc, policyOf]
  · by_cases hxn : x = n
    · subst hxn
      rw [if_pos ha']
      simp [sampleSlow, State.pushMru, State.setLoc, hnv, policyOf]
    · have hn : ¬ (s.chunk n).chunk.Covers a := fun hn =>
        hapart x n (by simp) (by simp) hxn a ⟨ha', hn⟩
      have hv : ¬ (s.chunk v).chunk.Covers a := fun hv =>
        hapart x v (by simp) (by simp) hxv a ⟨ha', hv⟩
      rw [if_neg hn, if_neg hv, hx a ha']
      simp [sampleSlow, State.pushMru, State.pushLru, State.setLoc, State.emit, State.dqMru, hxv,
        hxn]

end Represents

/-! ## Whole runs -/

/-- The recency list, read from the two lists of the state. -/
def recencyList (s : State) : List NodePtr :=
  toList s.links s.mru (liveNodes s.regions).length ++
    toList s.links s.lru (liveNodes s.regions).length

/-- Regions are as `addRegion` cuts them and overlap no tracked one. -/
def AllocOk (chunkSize : Nat) (s : State) : Event → Prop
  | .alloc _ region =>
      Cut chunkSize region ∧
      ∀ r ∈ s.regions, r.2.start + r.2.size ≤ region.start ∨
        region.start + region.size ≤ r.2.start
  | .free _ => True
  | .sample _ _ => True

instance (chunkSize : Nat) (s : State) : (e : Event) → Decidable (AllocOk chunkSize s e)
  | .alloc _ _ => inferInstanceAs (Decidable (_ ∧ _))
  | .free _ => isTrue trivial
  | .sample _ _ => isTrue trivial

instance (chunkSize : Nat) (s : State) (e : Event) :
    Decidable ((system.restrict (AllocOk chunkSize)).enabled s e) :=
  inferInstanceAs (Decidable (Enabled s.regions e ∧ AllocOk chunkSize s e))

/-- On a release, every slow chunk that will be fast (it is among the first `C` of those that stay)
has its descriptor behind those of the released region. -/
def PromotionsLogged (C : Nat) (s : State) : Event → Prop
  | .free p =>
      ∀ region ∈ s.regions.lookup p,
        ∀ n ∈ ((recencyList s).filter fun n => n.region ≠ p).take C,
          s.loc n = .slow → BoundOnFree region s n
  | _ => True

instance (C : Nat) (s : State) : (e : Event) → Decidable (PromotionsLogged C s e)
  | .alloc _ _ => isTrue trivial
  | .free p =>
      inferInstanceAs (Decidable (∀ region ∈ s.regions.lookup p,
        ∀ n ∈ ((recencyList s).filter fun n => n.region ≠ p).take C,
          s.loc n = .slow → BoundOnFree region s n))
  | .sample _ _ => isTrue trivial

/-- The steps that keep tags and bindings together. -/
def StepOk (C chunkSize : Nat) (s : State) (e : Event) : Prop :=
  AllocOk chunkSize s e ∧ PromotionsLogged C s e

instance (C chunkSize : Nat) (s : State) (e : Event) : Decidable (StepOk C chunkSize s e) :=
  inferInstanceAs (Decidable (_ ∧ _))

instance (C chunkSize : Nat) (s : State) (e : Event) :
    Decidable ((system.restrict (StepOk C chunkSize)).enabled s e) :=
  inferInstanceAs (Decidable (Enabled s.regions e ∧ StepOk C chunkSize s e))

/-- The two lists are read back in full: there are no more nodes than chunks. -/
theorem Refines.recencyList_eq {C : Nat} {s : State} {L : List NodePtr} (h : Refines C s L) :
    recencyList s = L := by
  rcases h.rep with ⟨m, l, hrep, rfl⟩
  have hsub : m ++ l ⊆ liveNodes s.regions := by
    intro n hn
    rcases (h.live n).1 hn with ⟨region, hregion, hidx⟩
    exact List.mem_flatMap.2 ⟨(n.region, region), mem_of_lookup hregion,
      mem_nodesOf.2 ⟨rfl, hidx⟩⟩
  have hlen : m.length + l.length ≤ (liveNodes s.regions).length := by
    have hle := (List.subperm_of_subset hrep.lists.nodup hsub).length_le
    simpa using hle
  rw [recencyList, hrep.lists.left.toList_eq (by omega), hrep.lists.right.toList_eq (by omega)]

theorem allocRegion_chunk (s : State) (p : RegionPtr) (region : ShamblesRegion) :
    (allocRegion s p region).chunk =
      (initNodes { s with regions := (p, region) :: s.regions } p region).chunk := by
  simp [allocRegion, placeSlow_chunk, placeFast_chunk]

theorem freeRegion_chunk (s : State) (p : RegionPtr) (region : ShamblesRegion) :
    (freeRegion s p region).chunk = s.chunk := by
  simp [freeRegion, freeChunks_chunk, State.emit]

theorem lookup_freeRegion {s : State} {p q : RegionPtr} {region r : ShamblesRegion}
    (hr : (freeRegion s p region).regions.lookup q = some r) :
    q ≠ p ∧ s.regions.lookup q = some r := by
  rw [freeRegion_regions, lookup_filter_ne] at hr
  by_cases hqp : q = p
  · simp [hqp] at hr
  · exact ⟨hqp, by simpa [hqp] using hr⟩

theorem handleSample_chunk {s s' : State} {addr : Nat} {chunk : Option NodePtr}
    (h : handleSample s addr chunk = some s') : s'.chunk = s.chunk := by
  cases chunk with
  | none =>
      obtain rfl := Option.some.inj h
      rfl
  | some node =>
      simp only [handleSample] at h
      split at h
      · obtain rfl := Option.some.inj h
        rfl
      · split at h
        · cases h
        · obtain rfl := Option.some.inj h
          rfl

/-! ## Descriptors -/

/-- Regions have different addresses, and every node has the descriptor its region gives it. -/
structure Described (s : State) : Prop where
  keys : (s.regions.map Prod.fst).Nodup
  chunk_eq : ∀ n region, s.regions.lookup n.region = some region →
    ∀ c, region.chunks[n.index]? = some c →
      s.chunk n = ⟨region.chunksPtr + sizeofChunk * n.index, c⟩

namespace Described

variable {s s' : State} {p : RegionPtr} {region : ShamblesRegion}

theorem init (C : Nat) : Described (lruInit C) :=
  ⟨List.nodup_nil, by intro n r hr; cases hr⟩

theorem alloc (h : Described s) (hfresh : s.regions.lookup p = none) :
    Described (allocRegion s p region) := by
  refine ⟨?_, ?_⟩
  · rw [allocRegion_regions]
    exact List.nodup_cons.2 ⟨notMem_keys_of_lookup hfresh, h.keys⟩
  · intro n r hr c hc
    rw [allocRegion_regions, lookup_cons_eq] at hr
    rw [allocRegion_chunk]
    by_cases hnp : n.region = p
    · obtain rfl : region = r := by simpa [hnp] using hr
      simp [initNodes, hnp, hc]
    · simp only [hnp, if_false] at hr
      simpa [initNodes, hnp] using h.chunk_eq n r hr c hc

theorem free (h : Described s) : Described (freeRegion s p region) := by
  refine ⟨?_, ?_⟩
  · rw [freeRegion_regions]
    exact (List.filter_sublist.map Prod.fst).nodup h.keys
  · intro n r hr c hc
    rw [freeRegion_chunk]
    exact h.chunk_eq n r (lookup_freeRegion hr).2 c hc

theorem sample (h : Described s) {addr : Nat} {chunk : Option NodePtr}
    (hs' : handleSample s addr chunk = some s') : Described s' := by
  refine ⟨?_, ?_⟩
  · rw [handleSample_regions hs']
    exact h.keys
  · intro n r hr c hc
    rw [handleSample_regions hs'] at hr
    rw [handleSample_chunk hs']
    exact h.chunk_eq n r hr c hc

theorem step (h : Described s) {e : Event} (he : Enabled s.regions e)
    (hs' : Lru.step s e = some s') : Described s' := by
  cases e with
  | alloc p region =>
      obtain rfl : allocRegion s p region = s' := Option.some.inj hs'
      exact h.alloc he.1
  | free p =>
      rcases of_step_free hs' with ⟨region, hregion, rfl⟩
      exact h.free
  | sample addr chunk => exact h.sample hs'

theorem run {C : Nat} {es : List Event} (h : Run system (lruInit C) es s) : Described s :=
  Run.invariant_state (init C) (fun _ _ _ hs hen hst => hs.step hen hst) h

theorem mem_liveNodes (h : Described s) {n : NodePtr} :
    n ∈ liveNodes s.regions ↔ LiveNode s.regions n := by
  refine ⟨?_, LiveNode.mem_liveNodes⟩
  intro hn
  rcases List.mem_flatMap.1 hn with ⟨⟨q, r⟩, hr, hnode⟩
  rcases mem_nodesOf.1 hnode with ⟨rfl, hi⟩
  exact ⟨r, lookup_of_mem h.keys hr, hi⟩

theorem nodup_liveNodes (h : Described s) : (liveNodes s.regions).Nodup := by
  refine List.nodup_flatMap.2 ⟨fun r _ => nodup_nodesOf r.1 r.2, ?_⟩
  refine (List.pairwise_map.1 h.keys).imp ?_
  intro r r' hne n hn hn'
  exact hne ((mem_nodesOf.1 hn).1.symm.trans (mem_nodesOf.1 hn').1)

/-- The chunk of a live node is a chunk of its region. -/
theorem chunk_mem (h : Described s) {n : NodePtr} (hr : s.regions.lookup n.region = some region)
    (hi : n.index < region.nChunks) : (s.chunk n).chunk ∈ region.chunks := by
  rw [h.chunk_eq n region hr _ (List.getElem?_eq_getElem hi)]
  exact List.getElem_mem hi

/-- A chunk of the released region is not behind its own descriptors. -/
theorem region_ne_of_boundOnFree (h : Described s) (hlive : s.regions.lookup p = some region)
    {n : NodePtr} (hn : LiveNode s.regions n) (hbound : BoundOnFree region s n) : n.region ≠ p := by
  rintro rfl
  rcases hn with ⟨r, hr, hi⟩
  obtain rfl : r = region := Option.some.inj (hr.symm.trans hlive)
  unfold BoundOnFree at hbound
  rw [h.chunk_eq n r hr _ (List.getElem?_eq_getElem hi)] at hbound
  have hle := Nat.mul_le_mul_left sizeofChunk hi.le
  simp only at hbound
  omega

end Described

/-! ## Layout -/

/-- Regions are tiled by their chunks, and no two of them overlap. -/
structure Layout (s : State) : Prop extends Described s where
  nonempty : ∀ p region, s.regions.lookup p = some region → region.chunks ≠ []
  tiles : ∀ p region, s.regions.lookup p = some region → Tiles region.start region.chunks
  apart : ∀ p q r r', p ≠ q → s.regions.lookup p = some r → s.regions.lookup q = some r' →
    r.start + r.size ≤ r'.start ∨ r'.start + r'.size ≤ r.start

namespace Layout

variable {s s' : State} {p : RegionPtr} {region : ShamblesRegion}

/-- Inside one region the tiling keeps chunks apart, across regions the ranges do. -/
theorem apart_nodes (h : Layout s) {x y : NodePtr} (hx : LiveNode s.regions x) (hy : LiveNode s.regions y)
    (hxy : x ≠ y) : Apart (s.chunk x).chunk (s.chunk y).chunk := by
  rcases hx with ⟨r, hr, hi⟩
  rcases hy with ⟨r', hr', hj⟩
  rw [h.chunk_eq x r hr _ (List.getElem?_eq_getElem hi),
    h.chunk_eq y r' hr' _ (List.getElem?_eq_getElem hj)]
  intro a hboth
  by_cases hregion : x.region = y.region
  · obtain rfl : r = r' := by
      rw [hregion, hr'] at hr
      exact (Option.some.inj hr).symm
    have hidx : x.index ≠ y.index := by
      intro hidx
      rcases x with ⟨xr, xi⟩
      rcases y with ⟨yr, yi⟩
      simp_all
    exact (h.tiles _ r hr).disjoint _ _ hi hj hidx a hboth
  · have hin := (h.tiles _ r hr).bounds _ (List.getElem_mem hi) a hboth.1
    have hin' := (h.tiles _ r' hr').bounds _ (List.getElem_mem hj) a hboth.2
    have hsep := h.apart _ _ r r' hregion hr hr'
    unfold ShamblesRegion.size at hsep
    omega

/-- A step that at most forgets regions keeps the layout. -/
theorem shrink (h : Layout s) (hdescribed : Described s')
    (hlookup : ∀ q r, s'.regions.lookup q = some r → s.regions.lookup q = some r) : Layout s' := by
  refine ⟨hdescribed, ?_, ?_, ?_⟩
  · intro q r hr
    exact h.nonempty q r (hlookup _ _ hr)
  · intro q r hr
    exact h.tiles q r (hlookup _ _ hr)
  · intro q q' r r' hqq' hr hr'
    exact h.apart q q' r r' hqq' (hlookup _ _ hr) (hlookup _ _ hr')

theorem allocRegion (h : Layout s) (hfresh : s.regions.lookup p = none) (hne : region.chunks ≠ [])
    (htiles : Tiles region.start region.chunks)
    (hsep : ∀ r ∈ s.regions, r.2.start + r.2.size ≤ region.start ∨
      region.start + region.size ≤ r.2.start) : Layout (allocRegion s p region) := by
  refine ⟨h.toDescribed.alloc hfresh, ?_, ?_, ?_⟩
  · intro q r hr
    rw [allocRegion_regions, lookup_cons_eq] at hr
    by_cases hqp : q = p
    · obtain rfl : region = r := by simpa [hqp] using hr
      exact hne
    · simp only [hqp, if_false] at hr
      exact h.nonempty q r hr
  · intro q r hr
    rw [allocRegion_regions, lookup_cons_eq] at hr
    by_cases hqp : q = p
    · obtain rfl : region = r := by simpa [hqp] using hr
      exact htiles
    · simp only [hqp, if_false] at hr
      exact h.tiles q r hr
  · intro q q' r r' hqq' hr hr'
    rw [allocRegion_regions, lookup_cons_eq] at hr hr'
    by_cases hqp : q = p
    · have hq'p : q' ≠ p := fun hq'p => hqq' (hqp.trans hq'p.symm)
      obtain rfl : region = r := by simpa [hqp] using hr
      simp only [hq'p, if_false] at hr'
      exact (hsep _ (mem_of_lookup hr')).symm
    · simp only [hqp, if_false] at hr
      by_cases hq'p : q' = p
      · obtain rfl : region = r' := by simpa [hq'p] using hr'
        exact hsep _ (mem_of_lookup hr)
      · simp only [hq'p, if_false] at hr'
        exact h.apart q q' r r' hqq' hr hr'

theorem freeRegion (h : Layout s) : Layout (freeRegion s p region) :=
  h.shrink h.toDescribed.free (fun _ _ hr => (lookup_freeRegion hr).2)

theorem handleSample (h : Layout s) {addr : Nat} {chunk : Option NodePtr}
    (hs' : handleSample s addr chunk = some s') : Layout s' := by
  refine h.shrink (h.toDescribed.sample hs') ?_
  intro q r hr
  rwa [handleSample_regions hs'] at hr

/-- `unbind` takes back the binding of the first chunk of its region, which no other node has. -/
theorem bindingAt_unbind (h : Layout s) (hlive : s.regions.lookup p = some region) {x : NodePtr}
    (hx : LiveNode s.regions x) (hne : x ≠ ⟨p, 0⟩) {a : Nat} (ha : (s.chunk x).chunk.Covers a) :
    bindingAt (s.trace ++ unbind region) a = bindingAt s.trace a := by
  rcases List.exists_cons_of_ne_nil (h.nonempty p region hlive) with ⟨c, cs, hcs⟩
  have htiles := h.tiles p region hlive
  rw [hcs] at htiles
  have hfirst : LiveNode s.regions ⟨p, 0⟩ := ⟨region, hlive, by simp [ShamblesRegion.nChunks, hcs]⟩
  have hc : (s.chunk ⟨p, 0⟩).chunk = c := by
    rw [h.chunk_eq ⟨p, 0⟩ region hlive c (by simp [hcs])]
  have hout : ¬ c.Covers a := by
    intro hca
    rw [← hc] at hca
    exact h.apart_nodes hx hfirst hne a ⟨ha, hca⟩
  rw [Plugins.bindingAt_unbind s.trace hcs htiles.1, if_neg hout]

end Layout

/-- The invariant of the runs that meet `StepOk`. -/
structure Placed (C : Nat) (s : State) (L : List NodePtr) : Prop where
  refines : Refines C s L
  layout : Layout s
  agree : ∀ n, LiveNode s.regions n → Agree s n

namespace Placed

variable {C : Nat} {s s' : State} {L : List NodePtr} {p : RegionPtr} {region : ShamblesRegion}

theorem init (hmax : C ≤ INT_MAX) : Placed C (lruInit C) [] := by
  refine ⟨Refines.init hmax, ⟨Described.init C, ?_, ?_, ?_⟩, ?_⟩
  · intro q r hr
    cases hr
  · intro q r hr
    cases hr
  · intro q q' r r' _ hr
    cases hr
  · rintro n ⟨r, hr, _⟩
    cases hr

theorem alloc (h : Placed C s L) (hfresh : s.regions.lookup p = none)
    (hne : region.chunks ≠ []) (htiles : Tiles region.start region.chunks)
    (hsep : ∀ r ∈ s.regions, r.2.start + r.2.size ≤ region.start ∨
      region.start + region.size ≤ r.2.start) :
    Placed C (allocRegion s p region) (L ++ nodesOf p region) := by
  have hlay := h.layout.allocRegion hfresh hne htiles hsep
  have hold : ∀ x, LiveNode s.regions x → x.region ≠ p := by
    rintro x ⟨r, hr, _⟩ hxp
    rw [hxp, hfresh] at hr
    cases hr
  have hlive : ∀ {x}, LiveNode (allocRegion s p region).regions x ↔
      LiveNode s.regions x ∨ x ∈ nodesOf p region := by
    intro x
    simp only [LiveNode, allocRegion_regions, lookup_cons_eq, mem_nodesOf]
    by_cases hxp : x.region = p
    · simp [hxp, hfresh]
    · simp [hxp]
  have hplacing : Placing (initNodes { s with regions := (p, region) :: s.regions } p region)
      (LiveNode s.regions) (nodesOf p region) := by
    refine ⟨?_, nodup_nodesOf p region, ?_, ?_⟩
    · intro x hx
      refine (h.agree x hx).of_unchanged ?_ rfl (fun _ _ => rfl)
      simp [initNodes, hold x hx]
    · intro x hx hmem
      exact hold x hx (mem_nodesOf.1 hmem).1
    · intro x y hx hy hxy
      have hapart := hlay.apart_nodes (hlive.2 hx) (hlive.2 (Or.inr hy)) hxy
      rwa [allocRegion_chunk] at hapart
  refine ⟨h.refines.alloc hfresh, hlay, ?_⟩
  intro n hn
  exact hplacing.place n (hlive.1 hn)

theorem free (h : Placed C s L) (hlive : s.regions.lookup p = some region)
    (hbound : ∀ n ∈ (L.filter fun n => n.region ≠ p).take C,
      s.loc n = .slow → BoundOnFree region s n) :
    Placed C (freeRegion s p region) (L.filter fun n => n.region ≠ p) := by
  have hfilter := h.refines.filter_nodesOf hlive
  refine ⟨h.refines.free hlive, h.layout.freeRegion, ?_⟩
  rcases h.refines.rep with ⟨m, l, hrep, rfl⟩
  have hunbind : ∀ x ∈ (m ++ l).filter (fun n => n ∉ nodesOf p region),
      Agree (s.emit (unbind region)) x := by
    intro x hx
    rw [hfilter] at hx
    rcases List.mem_filter.1 hx with ⟨hxL, hxp⟩
    have hxlive : LiveNode s.regions x := (h.refines.live x).1 hxL
    have hxne : x ≠ ⟨p, 0⟩ := by
      rintro rfl
      simp at hxp
    refine (h.agree x hxlive).of_unchanged rfl rfl ?_
    intro a ha
    exact h.layout.bindingAt_unbind hlive hxlive hxne ha
  have hloop := (hrep.emit (unbind region)).freeChunks_agree region (nodup_nodesOf p region)
    (h.refines.mem_of_nodesOf hlive) (by rw [hfilter]; exact hbound)
    (fun x hx y hy hxy => h.layout.apart_nodes ((h.refines.live x).1 hx)
      ((h.refines.live y).1 hy) hxy) hunbind
  rw [hfilter] at hloop
  rintro n ⟨r, hr, hidx⟩
  rcases lookup_freeRegion hr with ⟨hnp, hr'⟩
  refine hloop n (List.mem_filter.2 ⟨(h.refines.live n).2 ⟨r, hr', hidx⟩, by simpa using hnp⟩)

theorem sample (h : Placed C s L) (hC : 1 ≤ C) {addr : Nat} {n : NodePtr} (hn : LiveNode s.regions n)
    (hs' : handleSample s addr (some n) = some s') : Placed C s' (n :: L.erase n) := by
  rcases h.refines.sample hC addr hn with ⟨s'', hs'', href⟩
  obtain rfl : s'' = s' := Option.some.inj (hs''.symm.trans hs')
  have hregions := handleSample_regions hs'
  have hsame : ∀ x, LiveNode s''.regions x → LiveNode s.regions x := by
    intro x hx
    simpa [LiveNode, hregions] using hx
  rcases h.refines.rep with ⟨m, l, hrep, rfl⟩
  by_cases hloc : s.loc n = .fast
  · obtain rfl : sampleFast s addr n = s'' := by simpa [handleSample, hloc] using hs'
    refine ⟨href, h.layout.handleSample hs', ?_⟩
    intro x hx
    exact Represents.sampleFast_agree (h.agree x (hsame x hx))
  · have hslow : n ∈ l := by
      rcases List.mem_append.1 ((h.refines.live n).2 hn) with hm | hl
      · exact absurd (hrep.loc_fast n hm) hloc
      · exact hl
    rcases hrep.slow_split hC hslow with ⟨m', v, A, B, head, rfl, rfl, hhead, hprev⟩
    obtain rfl : sampleSlow (s.dqLru n) addr n v = s'' := by
      simpa [handleSample, hloc, hhead, hprev] using hs'
    have hv : LiveNode s.regions v := (h.refines.live v).1 (by simp)
    have hnv : n ≠ v := by
      rintro rfl
      exact hloc (hrep.loc_fast n (by simp))
    refine ⟨href, h.layout.handleSample hs', ?_⟩
    intro x hx
    refine Represents.sampleSlow_agree ?_ hnv ?_
    · exact (h.agree x (hsame x hx)).of_unchanged rfl rfl (fun _ _ => rfl)
    · intro y z hy hz hyz
      refine h.layout.apart_nodes ?_ ?_ hyz
      · rcases hy with rfl | rfl | rfl
        · exact hsame y hx
        · exact hn
        · exact hv
      · rcases hz with rfl | rfl | rfl
        · exact hsame z hx
        · exact hn
        · exact hv

theorem step (h : Placed C s L) (hC : 1 ≤ C) {chunkSize : Nat} (hsize : 0 < chunkSize) {e : Event}
    (he : Enabled s.regions e) (hok : StepOk C chunkSize s e) (hs' : Lru.step s e = some s') :
    Placed C s' (recencyStep L e) := by
  cases e with
  | alloc p region =>
      rcases hok.1 with ⟨hcut, hsep⟩
      obtain rfl : allocRegion s p region = s' := Option.some.inj hs'
      exact h.alloc he.1 he.2 (hcut.tiles hsize) hsep
  | free p =>
      rcases of_step_free hs' with ⟨region, hregion, rfl⟩
      refine h.free hregion ?_
      have hbound := hok.2 region hregion
      rwa [h.refines.recencyList_eq] at hbound
  | sample addr chunk =>
      have hlayout : Layout s' := Layout.handleSample h.layout hs'
      cases chunk with
      | none =>
          obtain rfl : s.emit [.logSample addr ⟨false, false⟩] = s' := Option.some.inj hs'
          rcases h.refines.rep with ⟨m, l, hrep, heq⟩
          refine ⟨⟨⟨m, l, hrep.emit _, heq⟩, h.refines.live⟩, hlayout, ?_⟩
          intro x hx
          refine (h.agree x hx).of_unchanged rfl rfl ?_
          intro a _
          exact bindingAt_logSample _ _ _ _
      | some n => exact h.sample hC he hs'

theorem run (hC : 1 ≤ C) (hmax : C ≤ INT_MAX) {chunkSize : Nat} (hsize : 0 < chunkSize)
    {es : List Event} (h : Run (system.restrict (StepOk C chunkSize)) (lruInit C) es s) :
    Placed C s (recency es) := by
  refine Run.invariant (P := fun es s => Placed C s (recency es)) (init hmax) ?_ h
  intro es s e s' hs hen hst
  simpa [recency_snoc] using hs.step hC hsize hen.1 hen.2 hst

end Placed

/-- For every byte of every live chunk, the tag says which mask its last `mbind` used. -/
def LocMatchesBindings (s : State) : Prop :=
  ∀ p region, s.regions.lookup p = some region → ∀ i c, region.chunks[i]? = some c →
    ∀ a, c.Covers a →
      (s.loc ⟨p, i⟩ = .fast ↔ bindingAt s.trace a = some .fastmask) ∧
      (s.loc ⟨p, i⟩ = .slow ↔ bindingAt s.trace a = some .slowmask)

/-- In every run whose steps all meet `StepOk`, tags and bindings agree in every state reached. -/
theorem loc_matches_bindings {C chunkSize : Nat} (hC : 1 ≤ C) (hmax : C ≤ INT_MAX)
    (hsize : 0 < chunkSize) {es : List Event} {s : State}
    (h : Run (system.restrict (StepOk C chunkSize)) (lruInit C) es s) :
    LocMatchesBindings s := by
  have hplaced := Placed.run hC hmax hsize h
  intro p region hregion i c hc a ha
  rcases List.getElem?_eq_some_iff.1 hc with ⟨hi, _⟩
  have hagree : bindingAt s.trace a = some (policyOf (s.loc ⟨p, i⟩)) := by
    refine hplaced.agree ⟨p, i⟩ ⟨region, hregion, hi⟩ a ?_
    rwa [hplaced.layout.chunk_eq ⟨p, i⟩ region hregion c hc]
  rw [hagree]
  cases s.loc ⟨p, i⟩ with
  | fast => simp [policyOf]
  | slow => simp [policyOf]

/-- The promoted chunk has its descriptor at `0x900`, behind those of the released region. -/
theorem loc_matches_bindings_descriptor_behind :
    ∃ s, Run (system.restrict (StepOk 1 0x10000)) (lruInit 1)
        [.alloc 1 ⟨0x18000, [⟨0x18000, 0x10000⟩], 0x800⟩,
          .alloc 2 ⟨0x38000, [⟨0x38000, 0x10000⟩], 0x900⟩, .free 1] s ∧
      LocMatchesBindings s := by
  rcases Run.of_exec (system.restrict (StepOk 1 0x10000)) (lruInit 1)
    [.alloc 1 ⟨0x18000, [⟨0x18000, 0x10000⟩], 0x800⟩,
      .alloc 2 ⟨0x38000, [⟨0x38000, 0x10000⟩], 0x900⟩, .free 1] (by decide) with ⟨s, _, hrun⟩
  exact ⟨s, hrun, loc_matches_bindings (by decide) (by decide) (by decide) hrun⟩

/-- With the two descriptor arrays the other way round the release of region 1 tags the chunk of
region 2 fast, and its pages stay bound to slow memory. -/
theorem loc_fast_bound_slow :
    ∃ s, Run system (lruInit 1)
        [.alloc 1 ⟨0x18000, [⟨0x18000, 0x10000⟩], 0x900⟩,
          .alloc 2 ⟨0x38000, [⟨0x38000, 0x10000⟩], 0x800⟩, .free 1] s ∧
      s.loc ⟨2, 0⟩ = .fast ∧ bindingAt s.trace 0x38000 = some .slowmask ∧
      ¬ LocMatchesBindings s := by
  rcases Run.of_exec system (lruInit 1)
    [.alloc 1 ⟨0x18000, [⟨0x18000, 0x10000⟩], 0x900⟩,
      .alloc 2 ⟨0x38000, [⟨0x38000, 0x10000⟩], 0x800⟩, .free 1] (by decide) with ⟨s, hs, hrun⟩
  obtain rfl := Option.some.inj hs
  refine ⟨_, hrun, by decide, by decide, ?_⟩
  intro hmatch
  have hbound := (hmatch 2 _ rfl 0 _ rfl 0x38000 (by decide)).1.1 (by decide)
  exact absurd hbound (by decide)

end Lru
end Shambles
