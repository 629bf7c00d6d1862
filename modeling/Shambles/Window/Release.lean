import Shambles.Window.Policy
import Shambles.Window.Ring

/-!
# Release — `ALLOC_EVENT_FREE` of the window plugin from any valid state

The loop over the nodes of the released region tests `nodes[i].loc = SLOW`, an assignment.  Every
node is taken out as a slow one: a fast node stays where it is and its fast chunk is never given
back.  For a slow node the repair of `tails` looks at the predecessor inside the slow list.  It
finds the node itself if there is no other one, and nothing of the fast list.

`release_keeps_valid_iff` says when none of this does harm (`Releasable`): all chunks of the region
are slow, a slow chunk of another region stays, and no class of counts is left with fast chunks
only.
-/

namespace Shambles
namespace Window

open AssocList CircularList RankedList Structures Plugins

/-! ## Valid states -/

/-- The lists hold the live nodes, the fast ones and the free fast chunks add up to `C`, and a
chunk is slow only if no fast one is free. -/
structure FreeValid (C : Nat) (s : State) (F S : List NodePtr) : Prop where
  listed : Listed s F S
  live : ∀ n, n ∈ F ++ S ↔ LiveNode s.regions n
  capacity : (F.length : Int) + s.freeFastChunks = C
  slow_nil : 0 < s.freeFastChunks → S = []

/-- No head of a list and no entry of `tails` names a node of the region at `p`. -/
def Forgotten (s : State) (p : RegionPtr) : Prop :=
  ∀ n : NodePtr, n.region = p → s.fastList ≠ some n ∧ s.slowList ≠ some n ∧ some n ∉ s.tails

/-- The release of the region at `p` ends in a valid state without its nodes. -/
def Releases (C : Nat) (s : State) (F S : List NodePtr) (p : RegionPtr) : Prop :=
  ∃ s' F' S', step s (.free p) = some s' ∧ FreeValid C s' F' S' ∧
    F' ++ S' = (F ++ S).filter (fun n => n.region ≠ p) ∧ Forgotten s' p

/-- All chunks of the region are slow, a slow chunk of another region stays, and a class that has
fast chunks keeps a slow one. -/
def Releasable (s : State) (p : RegionPtr) (region : ShamblesRegion) : Prop :=
  ∀ n ∈ nodesOf p region, s.loc n = .slow ∧
    (∃ m, LiveNode s.regions m ∧ s.loc m = .slow ∧ m.region ≠ p) ∧
    ((∃ f, LiveNode s.regions f ∧ s.loc f = .fast ∧ s.count f = s.count n) →
      ∃ m, LiveNode s.regions m ∧ s.loc m = .slow ∧ m.region ≠ p ∧ s.count m = s.count n)

/-! ## When a slow node can leave -/

section Safe

variable {count : NodePtr → Nat} {F S rest : List NodePtr} {node : NodePtr}

/-- `node` is not alone in the slow list, and not the one slow node of a class with fast ones. -/
def SafeOne (count : NodePtr → Nat) (F S : List NodePtr) (node : NodePtr) : Prop :=
  (∃ m ∈ S, m ≠ node) ∧
    ((∃ f ∈ F, count f = count node) → ∃ m ∈ S, m ≠ node ∧ count m = count node)

/-- The same for nodes that leave one after the other. -/
def SafeAll (count : NodePtr → Nat) (F S ns : List NodePtr) : Prop :=
  ∀ n ∈ ns, (∃ m ∈ S, m ∉ ns) ∧
    ((∃ f ∈ F, count f = count n) → ∃ m ∈ S, m ∉ ns ∧ count m = count n)

/-- What stays to the end is there after every iteration. -/
theorem SafeAll.of_cons (hS : S.Nodup) (h : SafeAll count F S (node :: rest)) :
    SafeOne count F S node ∧ SafeAll count F (S.erase node) rest := by
  have hkept : ∀ m ∈ S, m ∉ node :: rest → m ≠ node ∧ m ∈ S.erase node ∧ m ∉ rest := by
    intro m hm hout
    rw [List.mem_cons, not_or] at hout
    exact ⟨hout.1, hS.mem_erase_iff.2 ⟨hout.1, hm⟩, hout.2⟩
  refine ⟨?_, ?_⟩
  · rcases h node (by simp) with ⟨⟨m, hm, hout⟩, hclass⟩
    refine ⟨⟨m, hm, (hkept m hm hout).1⟩, ?_⟩
    intro hfast
    rcases hclass hfast with ⟨m, hm, hout, hcount⟩
    exact ⟨m, hm, (hkept m hm hout).1, hcount⟩
  · intro n hn
    rcases h n (List.mem_cons_of_mem _ hn) with ⟨⟨m, hm, hout⟩, hclass⟩
    refine ⟨⟨m, (hkept m hm hout).2⟩, ?_⟩
    intro hfast
    rcases hclass hfast with ⟨m, hm, hout, hcount⟩
    rcases hkept m hm hout with ⟨_, hmem, hout⟩
    exact ⟨m, hmem, hout, hcount⟩

theorem SafeAll.cons (hS : S.Nodup) (hone : SafeOne count F S node)
    (hall : SafeAll count F (S.erase node) rest) : SafeAll count F S (node :: rest) := by
  have hkept : ∀ m ∈ S.erase node, m ∉ rest → m ∈ S ∧ m ∉ node :: rest := by
    intro m hm hout
    rcases hS.mem_erase_iff.1 hm with ⟨hne, hmem⟩
    exact ⟨hmem, by simp [hne, hout]⟩
  -- the node that was found for `node` may leave later, but then another one was found for it
  have hother : ∃ m ∈ S, m ∉ node :: rest := by
    rcases hone.1 with ⟨m, hm, hne⟩
    by_cases hmrest : m ∈ rest
    · rcases (hall m hmrest).1 with ⟨m', hm', hout'⟩
      exact ⟨m', hkept m' hm' hout'⟩
    · exact ⟨m, hm, by simp [hne, hmrest]⟩
  intro n hn
  refine ⟨hother, ?_⟩
  intro hfast
  rcases List.mem_cons.1 hn with rfl | hn
  · rcases hone.2 hfast with ⟨m, hm, hne, hcount⟩
    by_cases hmrest : m ∈ rest
    · rcases (hall m hmrest).2 (by rwa [hcount]) with ⟨m', hm', hout', hcount'⟩
      rcases hkept m' hm' hout' with ⟨hmem, hout⟩
      exact ⟨m', hmem, hout, hcount'.trans hcount⟩
    · exact ⟨m, hm, by simp [hne, hmrest], hcount⟩
  · rcases (hall n hn).2 hfast with ⟨m, hm, hout, hcount⟩
    rcases hkept m hm hout with ⟨hmem, hout⟩
    exact ⟨m, hmem, hout, hcount⟩

/-- If the last node of a class is safe, the fast list has no say in who becomes the last one. -/
theorem SafeOne.getLast?_filter {A B : List NodePtr} (h : SafeOne count F (A ++ node :: B) node)
    (hB : ∀ b ∈ B, count b ≠ count node) :
    A.getLast?.filter (fun a => count a = count node) =
      (F ++ A).getLast?.filter (fun a => count a = count node) := by
  rcases List.eq_nil_or_concat' A with rfl | ⟨A', a, rfl⟩
  · have hfast : ∀ f ∈ F, count f ≠ count node := by
      intro f hf hcount
      rcases h.2 ⟨f, hf, hcount⟩ with ⟨m, hm, hne, hmcount⟩
      have hmB : m ∈ B := by simpa [hne] using hm
      exact hB m hmB hmcount
    cases hF : F.getLast? with
    | none => simp [hF]
    | some f => simp [hF, Option.filter, hfast f (List.mem_of_getLast? hF)]
  · simp

end Safe

/-! ## One iteration -/

section Iteration

variable {s s' : State} {F S A B : List NodePtr} {node : NodePtr}

/-- The repair of `tails` writes one entry, and only over the node at hand. -/
theorem replaceTail_cases {v : Option NodePtr} (h : replaceTail s node (some v) = some s') :
    (s.tails[s.count node]? = some (some node) ∧
      s' = { s with tails := s.tails.set (s.count node) v }) ∨
    (s.tails[s.count node]? ≠ some (some node) ∧ s' = s) := by
  rcases Option.bind_eq_some_iff.1 h with ⟨own, hown, h⟩
  rw [State.getTail_option] at hown
  split at h
  · rename_i heq
    have hlt := (List.getElem?_eq_some_iff.1 hown).1
    rw [Option.bind_eq_bind, Option.bind_some, setTail_eq hlt] at h
    exact Or.inl ⟨hown.trans (congrArg some heq), (Option.some.inj h).symm⟩
  · rename_i hne
    refine Or.inr ⟨?_, (Option.some.inj h).symm⟩
    rw [hown]
    exact fun hsome => hne (Option.some.inj hsome)

theorem freeChunk_loc (h : freeChunk s node = some s') :
    s'.loc = Function.update s.loc node .slow := by
  rcases replaceTail_cases h with ⟨_, rfl⟩ | ⟨_, rfl⟩
  · rfl
  · rfl

/-- An entry of `tails` that does not name the node is left alone. -/
theorem freeChunk_keeps_entry (h : freeChunk s node = some s') {k : Nat} {v : Option NodePtr}
    (hentry : s.tails[k]? = some v) (hv : v ≠ some node) : s'.tails[k]? = some v := by
  rcases replaceTail_cases h with ⟨hown, rfl⟩ | ⟨_, rfl⟩
  · have hk : s.count node ≠ k := by
      rintro rfl
      exact hv (Option.some.inj (hentry.symm.trans hown))
    exact (List.getElem?_set_ne hk).trans hentry
  · exact hentry

/-- The state of an iteration between the list operation and the repair of `tails`. -/
theorem Listed.dqSlow_prev (h : Listed s F (A ++ node :: B)) :
    some (((s.setLoc node .slow).dqSlow node).links.prev node) =
      A.getLast?.or (node :: B).getLast? :=
  (congrArg some h.lists.symm.dq_prev).trans h.lists.right.circular.prev_middle

theorem Listed.freeChunk_spec (h : Listed s F S) (hnode : node ∈ S)
    (hsafe : SafeOne s.count F S node) :
    ∃ s', freeChunk s node = some s' ∧ Listed s' F (S.erase node) := by
  rcases List.append_of_mem hnode with ⟨A, B, rfl⟩
  have hnd : ((F ++ A) ++ node :: B).Nodup := by simpa using h.lists.nodup
  have hranked : Ranked s.count ((F ++ A) ++ node :: B) := by simpa using h.ranked
  have hne : A ≠ [] ∨ B ≠ [] := by
    by_contra hboth
    simp only [not_or, not_not] at hboth
    rcases hsafe.1 with ⟨m, hm, hmne⟩
    simp [hboth.1, hboth.2, hmne] at hm
  let s₁ := (s.setLoc node .slow).dqSlow node
  have htails : s.tails = index s.count (s.windowSize + 1) ((F ++ A) ++ node :: B) := by
    simpa using h.tails
  have hbound : s₁.count node < s.windowSize + 1 :=
    Nat.lt_succ_of_le (h.bounded node (by simp))
  have hrepair : freeChunk s node =
      some { s₁ with tails := index s₁.count (s.windowSize + 1) ((F ++ A) ++ B) } := by
    refine replaceTail_eq (s := s₁) htails hbound hnd ?_
    intro hB
    rw [prevInClass_eq h.dqSlow_prev hB hne]
    exact congrArg some ((hsafe.getLast?_filter hB).trans (hranked.lastOf_remove_last hB).symm)
  have hnodeF : node ∉ F := fun hF => h.lists.disjoint hF (by simp)
  rw [erase_middle h.lists.right.circular.nodup]
  refine ⟨_, hrepair, h.lists.symm.dq_left.symm, ?_, ?_, ?_, ?_, ?_⟩
  · intro n hn
    have hnn : n ≠ node := fun heq => hnodeF (heq ▸ hn)
    exact (Function.update_of_ne hnn _ _).trans (h.loc_fast n hn)
  · intro n hn
    rcases mem_middle_of_mem h.lists.right.circular.nodup hn with ⟨hmem, hnn⟩
    exact (Function.update_of_ne hnn _ _).trans (h.loc_slow n hmem)
  · change Ranked s.count (F ++ (A ++ B))
    rw [← List.append_assoc]
    exact hranked.remove
  · intro n hn
    rw [← List.append_assoc] at hn
    have hmem := (mem_middle_of_mem hnd hn).1
    rw [List.append_assoc] at hmem
    exact h.bounded n hmem
  · change index s.count (s.windowSize + 1) ((F ++ A) ++ B) = _
    rw [List.append_assoc]
    rfl

/-- An iteration that is not safe leaves a wrong entry in `tails`: the node that has just left, or
NULL for a class that has fast nodes. -/
theorem Listed.freeChunk_spoils (h : Listed s F S) (hnode : node ∈ S)
    (hrisky : ¬ SafeOne s.count F S node) (hs' : freeChunk s node = some s') :
    ∃ v, s'.tails[s.count node]? = some v ∧
      (v = some node ∨ v = none ∧ ∃ f ∈ F, s.count f = s.count node) := by
  rcases List.append_of_mem hnode with ⟨A, B, rfl⟩
  have hnd : ((F ++ A) ++ node :: B).Nodup := by simpa using h.lists.nodup
  -- no other slow node has the count of this one
  have halone : ∀ m ∈ A ++ B, s.count m ≠ s.count node := by
    intro m hm hcount
    rcases mem_middle_of_mem h.lists.right.circular.nodup hm with ⟨hmem, hne⟩
    exact hrisky ⟨⟨m, hmem, hne⟩, fun _ => ⟨m, hmem, hne, hcount⟩⟩
  have hB : ∀ b ∈ B, s.count b ≠ s.count node := fun b hb =>
    halone b (List.mem_append_right _ hb)
  have hown : s.tails[s.count node]? = some (some node) := by
    rw [h.tails_get (h.bounded node (by simp)), ← List.append_assoc, (lastOf_middle hnd).2 hB]
  -- So `tails` names the node, and the repair writes what the predecessor suggests.
  let s₁ := (s.setLoc node .slow).dqSlow node
  refine ⟨prevInClass s₁ node, ?_, ?_⟩
  · rcases replaceTail_cases hs' with ⟨_, rfl⟩ | ⟨hother, _⟩
    · exact List.getElem?_set_self (List.getElem?_eq_some_iff.1 hown).1
    · exact absurd hown hother
  · by_cases hne : A ≠ [] ∨ B ≠ []
    · have hnone : prevInClass s₁ node = none := by
        rw [prevInClass_eq h.dqSlow_prev hB hne]
        cases hA : A.getLast? with
        | none => rfl
        | some a =>
            have ha := halone a (List.mem_append_left _ (List.mem_of_getLast? hA))
            exact Option.filter_some_neg (decide_eq_false ha)
      refine Or.inr ⟨hnone, ?_⟩
      by_contra hfast
      refine hrisky ⟨?_, fun hex => absurd hex hfast⟩
      have hrest : A ++ B ≠ [] := fun hnil => by
        rcases List.append_eq_nil_iff.1 hnil with ⟨hA, hB⟩
        exact hne.elim (fun h => h hA) (fun h => h hB)
      rcases List.exists_mem_of_ne_nil (A ++ B) hrest with ⟨m, hm⟩
      exact ⟨m, mem_middle_of_mem h.lists.right.circular.nodup hm⟩
    · -- alone in its list, the node is its own predecessor
      simp only [not_or, not_not] at hne
      have hself : s₁.links.prev node = node := by
        have hprev := h.dqSlow_prev
        simpa [hne.1, hne.2] using hprev
      refine Or.inl ?_
      rw [prevInClass, hself, if_pos rfl]

end Iteration

/-! ## The loop -/

section Loop

variable {s s' : State} {F S ns : List NodePtr}

theorem freeChunks_loc (n : NodePtr) :
    ∀ {s : State}, ns.foldlM freeChunk s = some s' →
      s'.loc n = if n ∈ ns then .slow else s.loc n := by
  induction ns with
  | nil =>
      intro s h
      obtain rfl := Option.some.inj h
      simp
  | cons m rest ih =>
      intro s h
      rcases Option.bind_eq_some_iff.1 h with ⟨s₁, hs₁, h⟩
      rw [ih h, freeChunk_loc hs₁]
      by_cases hrest : n ∈ rest
      · simp [hrest]
      · by_cases hnm : n = m
        · simp [hnm]
        · simp [hrest, hnm]

theorem freeChunks_keep_entry {k : Nat} {v : Option NodePtr} (hv : ∀ n ∈ ns, v ≠ some n) :
    ∀ {s : State}, ns.foldlM freeChunk s = some s' → s.tails[k]? = some v →
      s'.tails[k]? = some v := by
  induction ns with
  | nil =>
      intro s h hentry
      obtain rfl := Option.some.inj h
      exact hentry
  | cons m rest ih =>
      intro s h hentry
      rcases Option.bind_eq_some_iff.1 h with ⟨s₁, hs₁, h⟩
      refine ih (fun n hn => hv n (List.mem_cons_of_mem m hn)) h ?_
      exact freeChunk_keeps_entry hs₁ hentry (hv m (by simp))

theorem mem_erase_of_rest {n : NodePtr} {rest : List NodePtr} (hn : n ∉ rest)
    (hmem : ∀ m ∈ n :: rest, m ∈ S) : ∀ m ∈ rest, m ∈ S.erase n := by
  intro m hm
  refine (List.mem_erase_of_ne ?_).2 (hmem m (List.mem_cons_of_mem n hm))
  rintro rfl
  exact hn hm

theorem Listed.filter_erase (h : Listed s F S) {node : NodePtr} (hnode : node ∈ S)
    (rest : List NodePtr) :
    (F ++ S.erase node).filter (fun x => x ∉ rest) =
      (F ++ S).filter (fun x => x ∉ node :: rest) := by
  have hF : node ∉ F := fun hF => h.lists.disjoint hF hnode
  rw [← List.erase_append_right _ hF]
  exact filter_notMem_erase h.lists.nodup node rest

/-- Slow nodes that are safe to leave do so one after the other. -/
theorem Listed.freeChunks_spec (hns : ns.Nodup) :
    ∀ {s : State} {S : List NodePtr}, Listed s F S → (∀ n ∈ ns, n ∈ S) →
      SafeAll s.count F S ns →
      ∃ s' S', ns.foldlM freeChunk s = some s' ∧ Listed s' F S' ∧
        F ++ S' = (F ++ S).filter (fun x => x ∉ ns) := by
  induction ns with
  | nil =>
      intro s S h _ _
      exact ⟨s, S, rfl, h, by simp⟩
  | cons n rest ih =>
      intro s S h hmem hsafe
      rcases List.nodup_cons.1 hns with ⟨hnrest, hrest⟩
      have hn : n ∈ S := hmem n (by simp)
      have hS : S.Nodup := h.lists.right.circular.nodup
      -- Safe for all means safe for the first one now and for the rest afterwards.
      rcases hsafe.of_cons hS with ⟨hone, hall⟩
      rcases h.freeChunk_spec hn hone with ⟨s₁, hs₁, hlisted⟩
      have hmem₁ := mem_erase_of_rest hnrest hmem
      rw [← (Untouched.freeChunk hs₁).count] at hall
      rcases ih hrest hlisted hmem₁ hall with ⟨s', S', hs', hlisted', horder⟩
      refine ⟨s', S', ?_, hlisted', horder.trans (h.filter_erase hn rest)⟩
      rw [List.foldlM_cons, hs₁]
      exact hs'

/-- Otherwise an entry of `tails` is wrong in the end, as no later iteration repairs it. -/
theorem Listed.freeChunks_spoil (hns : ns.Nodup) :
    ∀ {s : State} {S : List NodePtr}, Listed s F S → (∀ n ∈ ns, n ∈ S) →
      ¬ SafeAll s.count F S ns → ns.foldlM freeChunk s = some s' →
      ∃ k v, k ≤ s.windowSize ∧ s'.tails[k]? = some v ∧
        v ≠ lastOf s.count k ((F ++ S).filter (fun x => x ∉ ns)) := by
  induction ns with
  | nil =>
      intro s S _ _ hrisky _
      exact absurd (fun n hn => nomatch hn) hrisky
  | cons n rest ih =>
      intro s S h hmem hrisky hs'
      rcases List.nodup_cons.1 hns with ⟨hnrest, hrest⟩
      rcases Option.bind_eq_some_iff.1 hs' with ⟨s₁, hs₁, hs'⟩
      have hn : n ∈ S := hmem n (by simp)
      have hS : S.Nodup := h.lists.right.circular.nodup
      have hframe := Untouched.freeChunk hs₁
      -- Either a later iteration does the harm, or this one does.
      by_cases hone : SafeOne s.count F S n
      · rcases h.freeChunk_spec hn hone with ⟨_, hspec, hlisted⟩
        obtain rfl := Option.some.inj (hs₁.symm.trans hspec)
        have hmem₁ := mem_erase_of_rest hnrest hmem
        have hlater : ¬ SafeAll s₁.count F (S.erase n) rest := by
          rw [hframe.count]
          exact fun hall => hrisky (SafeAll.cons hS hone hall)
        rcases ih hrest hlisted hmem₁ hlater hs' with ⟨k, v, hk, hentry, hwrong⟩
        rw [hframe.rest.windowSize] at hk
        rw [hframe.count, h.filter_erase hn rest] at hwrong
        exact ⟨k, v, hk, hentry, hwrong⟩
      · rcases h.freeChunk_spoils hn hone hs₁ with ⟨v, hentry, hv⟩
        refine ⟨s.count n, v, h.bounded n (List.mem_append_right _ hn),
          freeChunks_keep_entry ?_ hs' hentry, ?_⟩
        · rintro m hm rfl
          rcases hv with hvn | ⟨hnone, _⟩
          · exact hnrest (Option.some.inj hvn ▸ hm)
          · cases hnone
        · intro hlast
          rcases hv with rfl | ⟨rfl, f, hf, hcount⟩
          · -- the entry names a node that is gone
            have hstays := (mem_of_lastOf hlast.symm).1
            simp at hstays
          · -- the entry is NULL, but a fast node has this count
            have hout : f ∉ n :: rest := fun hmemf => h.lists.disjoint hf (hmem f hmemf)
            have hstays : f ∈ (F ++ S).filter (fun x => x ∉ n :: rest) :=
              List.mem_filter.2 ⟨List.mem_append_left _ hf, decide_eq_true hout⟩
            exact lastOf_eq_none_iff.1 hlast.symm f hstays hcount

end Loop

/-! ## The release -/

/-- What the release does behind the loop. -/
def released (s : State) (p : RegionPtr) (region : ShamblesRegion) : State :=
  { purgeSamples s region with regions := s.regions.filter (fun r => r.1 ≠ p) }

theorem freeRegion_eq_some_iff {s s' : State} {p : RegionPtr} {region : ShamblesRegion} :
    freeRegion s p region = some s' ↔
      ∃ s₂, (nodesOf p region).foldlM freeChunk (s.emit (unbind region)) = some s₂ ∧
        s' = released s₂ p region := by
  simp only [freeRegion, Option.pure_def, Option.bind_eq_bind, Option.bind_eq_some_iff,
    Option.some.injEq]
  constructor
  · rintro ⟨s₂, hs₂, rfl⟩
    exact ⟨s₂, hs₂, rfl⟩
  · rintro ⟨s₂, hs₂, rfl⟩
    exact ⟨s₂, hs₂, rfl⟩

theorem Listed.released {s : State} {F S : List NodePtr} (h : Listed s F S) (p : RegionPtr)
    (region : ShamblesRegion) : Listed (released s p region) F S :=
  ⟨h.lists, h.loc_fast, h.loc_slow, h.ranked, h.bounded, h.tails⟩

namespace FreeValid

variable {C : Nat} {s s' : State} {F S F' S' : List NodePtr} {p : RegionPtr}
  {region : ShamblesRegion} {n : NodePtr}

theorem mem_fast (h : FreeValid C s F S) :
    n ∈ F ↔ LiveNode s.regions n ∧ s.loc n = .fast := by
  rw [← h.live, List.mem_append]
  constructor
  · exact fun hn => ⟨Or.inl hn, h.listed.loc_fast n hn⟩
  · rintro ⟨hF | hS, hloc⟩
    · exact hF
    · rw [h.listed.loc_slow n hS] at hloc
      cases hloc

theorem mem_slow (h : FreeValid C s F S) :
    n ∈ S ↔ LiveNode s.regions n ∧ s.loc n = .slow := by
  rw [← h.live, List.mem_append]
  constructor
  · exact fun hn => ⟨Or.inr hn, h.listed.loc_slow n hn⟩
  · rintro ⟨hF | hS, hloc⟩
    · rw [h.listed.loc_fast n hF] at hloc
      cases hloc
    · exact hS

/-- The listed nodes of the region are all of its nodes. -/
theorem mem_nodesOf_iff (h : FreeValid C s F S) (hregion : s.regions.lookup p = some region) :
    n ∈ nodesOf p region ↔ n ∈ F ++ S ∧ n.region = p := by
  rw [mem_nodesOf, h.live]
  constructor
  · rintro ⟨rfl, hindex⟩
    exact ⟨⟨region, hregion, hindex⟩, rfl⟩
  · rintro ⟨⟨r, hr, hindex⟩, rfl⟩
    obtain rfl := Option.some.inj (hregion.symm.trans hr)
    exact ⟨rfl, hindex⟩

theorem filter_nodesOf (h : FreeValid C s F S) (hregion : s.regions.lookup p = some region) :
    (F ++ S).filter (fun n => n ∉ nodesOf p region) =
      (F ++ S).filter (fun n => n.region ≠ p) := by
  refine List.filter_congr ?_
  intro n hn
  have hmem := h.mem_nodesOf_iff (n := n) hregion
  simp only [hn, true_and] at hmem
  simp [hmem]

theorem mem_slow_stays (h : FreeValid C s F S) (hregion : s.regions.lookup p = some region) :
    n ∈ S ∧ n ∉ nodesOf p region ↔ LiveNode s.regions n ∧ s.loc n = .slow ∧ n.region ≠ p := by
  rw [h.mem_nodesOf_iff hregion, List.mem_append, ← and_assoc, ← h.mem_slow]
  tauto

/-- The condition in terms of the lists. -/
theorem releasable_iff (h : FreeValid C s F S) (hregion : s.regions.lookup p = some region) :
    Releasable s p region ↔
      (∀ n ∈ nodesOf p region, n ∈ S) ∧ SafeAll s.count F S (nodesOf p region) := by
  have hnode : ∀ n ∈ nodesOf p region, n ∈ S ↔ s.loc n = .slow := by
    intro n hn
    rw [h.mem_slow, ← h.live]
    simp [((h.mem_nodesOf_iff hregion).1 hn).1]
  constructor
  · intro hrel
    refine ⟨fun n hn => (hnode n hn).2 (hrel n hn).1, ?_⟩
    intro n hn
    rcases hrel n hn with ⟨_, ⟨m, hm⟩, hclass⟩
    refine ⟨⟨m, (h.mem_slow_stays hregion).2 hm⟩, ?_⟩
    rintro ⟨f, hf, hcount⟩
    rcases h.mem_fast.1 hf with ⟨hlive, hloc⟩
    rcases hclass ⟨f, hlive, hloc, hcount⟩ with ⟨m, hlive, hloc, hne, hcount⟩
    rcases (h.mem_slow_stays hregion).2 ⟨hlive, hloc, hne⟩ with ⟨hm, hout⟩
    exact ⟨m, hm, hout, hcount⟩
  · rintro ⟨hslow, hsafe⟩ n hn
    rcases hsafe n hn with ⟨⟨m, hm⟩, hclass⟩
    refine ⟨(hnode n hn).1 (hslow n hn), ⟨m, (h.mem_slow_stays hregion).1 hm⟩, ?_⟩
    rintro ⟨f, hlive, hloc, hcount⟩
    rcases hclass ⟨f, h.mem_fast.2 ⟨hlive, hloc⟩, hcount⟩ with ⟨m, hm, hout, hcount⟩
    rcases (h.mem_slow_stays hregion).1 ⟨hm, hout⟩ with ⟨hlive, hloc, hne⟩
    exact ⟨m, hlive, hloc, hne, hcount⟩

/-- No iteration gives a fast chunk back, so there must not be one to give back. -/
theorem slow_of_released (h : FreeValid C s F S) (hregion : s.regions.lookup p = some region)
    (h' : FreeValid C s' F' S') (hfree : freeRegion s p region = some s')
    (horder : F' ++ S' = (F ++ S).filter (fun n => n.region ≠ p)) :
    ∀ n ∈ nodesOf p region, n ∈ S := by
  intro n hn
  rcases freeRegion_eq_some_iff.1 hfree with ⟨s₂, hs₂, hs'⟩
  rcases (h.mem_nodesOf_iff hregion).1 hn with ⟨hmem, hnp⟩
  rcases List.mem_append.1 hmem with hF | hS
  · -- `n` is missing in the new fast list, which has no other nodes than the old one
    have hsub : F' ⊆ F.erase n := by
      intro m hm
      have hstays : m ∈ (F ++ S).filter (fun n => n.region ≠ p) :=
        horder ▸ List.mem_append_left _ hm
      rcases List.mem_filter.1 hstays with ⟨hmFS, hmp⟩
      have hmp : m.region ≠ p := of_decide_eq_true hmp
      have hloc : s'.loc m = s.loc m := by
        have hout : m ∉ nodesOf p region := fun hin => hmp (mem_nodesOf.1 hin).1
        rw [hs']
        exact (freeChunks_loc m hs₂).trans (if_neg hout)
      have hmF : m ∈ F := h.mem_fast.2
        ⟨(h.live m).1 hmFS, hloc.symm.trans (h'.listed.loc_fast m hm)⟩
      refine (List.mem_erase_of_ne ?_).2 hmF
      rintro rfl
      exact hmp hnp
    have hnd : F'.Nodup := h'.listed.lists.left.circular.nodup
    have hle : F'.length ≤ (F.erase n).length := (hnd.subperm hsub).length_le
    have hpos : 0 < F.length := List.length_pos_of_mem hF
    rw [List.length_erase_of_mem hF] at hle
    have hfree' : s'.freeFastChunks = s.freeFastChunks := by
      rw [hs']
      exact (Untouched.freeChunks hs₂).rest.freeFastChunks
    have hbefore := h.capacity
    have hafter := h'.capacity
    omega
  · exact hS

theorem forgotten (h : FreeValid C s F S) (hnone : ∀ n ∈ F ++ S, n.region ≠ p) :
    Forgotten s p := by
  intro n hn
  have hout : n ∉ F ++ S := fun hmem => hnone n hmem hn
  rw [List.mem_append, not_or] at hout
  refine ⟨h.listed.lists.left.head_ne hout.1, h.listed.lists.right.head_ne hout.2, ?_⟩
  rw [h.listed.tails]
  intro hmem
  exact hnone n (mem_of_mem_index hmem) hn

/-- Nodes that are safe to leave are all a release takes out. -/
theorem released (h : FreeValid C s F S) (hregion : s.regions.lookup p = some region)
    {s₂ : State} (hframe : Untouched (s.emit (unbind region)) s₂) (hlisted : Listed s₂ F S')
    (horder : F ++ S' = (F ++ S).filter (fun n => n ∉ nodesOf p region)) :
    FreeValid C (released s₂ p region) F S' := by
  rw [h.filter_nodesOf hregion] at horder
  refine ⟨hlisted.released p region, ?_, ?_, ?_⟩
  · intro n
    have hregions : (Window.released s₂ p region).regions = s.regions.filter (fun r => r.1 ≠ p) :=
      congrArg (List.filter _) hframe.rest.regions
    rw [horder, List.mem_filter, decide_eq_true_iff, h.live, hregions, liveNode_filter, and_comm]
  · change (F.length : Int) + s₂.freeFastChunks = C
    rw [hframe.rest.freeFastChunks]
    exact h.capacity
  · -- with a free fast chunk there was no slow node to begin with
    intro hpos
    have hnil := h.slow_nil (hframe.rest.freeFastChunks ▸ hpos)
    have hlen := congrArg List.length horder
    have hle := List.length_filter_le (fun n : NodePtr => n.region ≠ p) (F ++ S)
    rw [hnil] at hlen hle
    simp only [List.length_append, List.length_nil] at hlen hle
    exact List.length_eq_zero_iff.1 (by omega)

end FreeValid

theorem release_keeps_valid_iff {C : Nat} {s : State} {F S : List NodePtr}
    (hvalid : FreeValid C s F S) {p : RegionPtr} {region : ShamblesRegion}
    (hregion : s.regions.lookup p = some region) :
    Releases C s F S p ↔ Releasable s p region := by
  have hstep : step s (.free p) = freeRegion s p region := by simp [step, hregion]
  have hlisted : Listed (s.emit (unbind region)) F S := hvalid.listed.emit (unbind region)
  rw [Releases, hstep, hvalid.releasable_iff hregion]
  constructor
  · rintro ⟨s', F', S', hfree, hvalid', horder, _⟩
    have hslow := hvalid.slow_of_released hregion hvalid' hfree horder
    refine ⟨hslow, ?_⟩
    by_contra hrisky
    rcases freeRegion_eq_some_iff.1 hfree with ⟨s₂, hs₂, rfl⟩
    have hframe := Untouched.freeChunks hs₂
    rcases hlisted.freeChunks_spoil (nodup_nodesOf p region) hslow hrisky hs₂ with
      ⟨k, v, hk, hentry, hwrong⟩
    have hright := hvalid'.listed.tails_get (hk.trans_eq hframe.rest.windowSize.symm)
    refine hwrong ?_
    rw [hvalid.filter_nodesOf hregion, ← horder]
    calc
      v = lastOf s₂.count k (F' ++ S') := Option.some.inj (hentry.symm.trans hright)
      _ = lastOf s.count k (F' ++ S') := by rw [hframe.count]; rfl
  · rintro ⟨hslow, hsafe⟩
    rcases hlisted.freeChunks_spec (nodup_nodesOf p region) hslow hsafe with
      ⟨s₂, S', hs₂, hlisted₂, horder⟩
    have hvalid' := hvalid.released hregion (Untouched.freeChunks hs₂) hlisted₂ horder
    rw [hvalid.filter_nodesOf hregion] at horder
    refine ⟨_, F, S', freeRegion_eq_some_iff.2 ⟨s₂, hs₂, rfl⟩, hvalid', horder,
      hvalid'.forgotten ?_⟩
    intro n hn
    rw [horder] at hn
    exact of_decide_eq_true (List.mem_filter.1 hn).2

/-- Reached states are valid in this sense. -/
theorem Follows.freeValid {C W : Nat} {T : List NodePtr} {s : State} {F S : List NodePtr}
    (h : Follows C W T s F S) (hkeys : (s.regions.map Prod.fst).Nodup) : FreeValid C s F S := by
  refine ⟨h.valid.toListed, ?_, ?_, ?_⟩
  · intro n
    refine ⟨?_, h.mem_of_live⟩
    intro hn
    rcases List.mem_flatMap.1 (h.live.subset hn) with ⟨⟨q, r⟩, hqr, hnode⟩
    rcases mem_nodesOf.1 hnode with ⟨rfl, hindex⟩
    exact ⟨r, lookup_of_mem hkeys hqr, hindex⟩
  · rw [h.free]
    omega
  · intro hpos
    have hfree := h.free
    have hfull := h.full
    exact List.length_eq_zero_iff.1 (by omega)

/-- Two slow chunks of the same count; one of them is released. -/
theorem release_keeps_valid_slow :
    ∃ s F S, Run system (windowInit 1 0x10000 2)
        [.alloc 7 ⟨0x18000, [⟨0x18000, 0x10000⟩], 0x800⟩,
          .alloc 8 ⟨0x38000, [⟨0x38000, 0x10000⟩], 0x900⟩,
          .alloc 9 ⟨0x58000, [⟨0x58000, 0x10000⟩], 0xa00⟩] s ∧
      FreeValid 1 s F S ∧ Releases 1 s F S 8 := by
  rcases Run.of_exec_any (system.restrict StepOk) (windowInit 1 0x10000 2)
    [.alloc 7 ⟨0x18000, [⟨0x18000, 0x10000⟩], 0x800⟩,
      .alloc 8 ⟨0x38000, [⟨0x38000, 0x10000⟩], 0x900⟩,
      .alloc 9 ⟨0x58000, [⟨0x58000, 0x10000⟩], 0xa00⟩]
    (fun s => (s.regions.map Prod.fst).Nodup ∧
      s.regions.lookup 8 = some ⟨0x38000, [⟨0x38000, 0x10000⟩], 0x900⟩ ∧
      LiveNode s.regions ⟨9, 0⟩ ∧ s.loc ⟨8, 0⟩ = .slow ∧ s.loc ⟨9, 0⟩ = .slow ∧
      s.count ⟨9, 0⟩ = s.count ⟨8, 0⟩) (by decide) with
    ⟨s, hrun, hkeys, hregion, hlive, hloc, hother, hcount⟩
  rcases Follows.run (by decide) (by decide) (by decide) hrun with ⟨F, S, hfollows⟩
  have hvalid := hfollows.freeValid hkeys
  refine ⟨s, F, S, hrun.of_restrict, hvalid, (release_keeps_valid_iff hvalid hregion).2 ?_⟩
  intro n hn
  obtain rfl : n = ⟨8, 0⟩ := by simpa [nodesOf, ShamblesRegion.nChunks] using hn
  exact ⟨hloc, ⟨⟨9, 0⟩, hlive, hother, by decide⟩,
    fun _ => ⟨⟨9, 0⟩, hlive, hother, by decide, hcount⟩⟩

/-- The one chunk of the one region is fast.  After the release it is still in the fast list, and
its fast chunk is not free. -/
theorem release_keeps_fast_chunk :
    ∃ s F S, Run system (windowInit 1 0x10000 2)
        [.alloc 7 ⟨0x18000, [⟨0x18000, 0x10000⟩], 0x800⟩] s ∧ FreeValid 1 s F S ∧
      ∃ s', step s (.free 7) = some s' ∧ s'.fastList = some ⟨7, 0⟩ ∧
        s'.freeFastChunks = 0 ∧ s'.regions = [] ∧ ∀ F' S', ¬ FreeValid 1 s' F' S' := by
  rcases Run.of_exec_any (system.restrict StepOk) (windowInit 1 0x10000 2)
    [.alloc 7 ⟨0x18000, [⟨0x18000, 0x10000⟩], 0x800⟩]
    (fun s => (s.regions.map Prod.fst).Nodup ∧
      (step s (.free 7)).any (fun s' => s'.fastList = some ⟨7, 0⟩ ∧ s'.freeFastChunks = 0 ∧
        s'.regions = []) = true) (by decide) with ⟨s, hrun, hkeys, htest⟩
  rcases Follows.run (by decide) (by decide) (by decide) hrun with ⟨F, S, hfollows⟩
  cases hs' : step s (.free 7) with
  | none => simp [hs'] at htest
  | some s' =>
      simp only [hs', Option.any_some, decide_eq_true_eq] at htest
      rcases htest with ⟨hfast, hfree, hregions⟩
      refine ⟨s, F, S, hrun.of_restrict, hfollows.freeValid hkeys, s', hs', hfast, hfree,
        hregions, ?_⟩
      intro F' S' hvalid'
      -- the head of the fast list would have to be a live node
      have hhead : F'.head? = some ⟨7, 0⟩ := hvalid'.listed.lists.left.head.symm.trans hfast
      have hmem := List.mem_append_left S' (List.mem_of_head? hhead)
      rcases (hvalid'.live ⟨7, 0⟩).1 hmem with ⟨r, hr, _⟩
      rw [hregions] at hr
      cases hr

end Window
end Shambles
