import Shambles.Window.Policy

/-!
# Moves — a demotion and a promotion from any valid state

The two halves of `handleSample`, each for itself and from every valid state, reachable or not.

* `demotion_keeps_valid`: the demotion always ends in a valid state.
* `promotion_keeps_valid_iff`: the promotion does, unless `node` is the one slow chunk, ranks below
  all others and finds the class above it occupied (`Lonely`).  The branch for an occupied class
  does not tell apart a list with one element, so `node`, its own predecessor, stays in `tails` as
  the last node of the class that it has just left.
-/

namespace Shambles
namespace Window

open CircularList RankedList Structures Plugins

/-! ## Valid states -/

/-- The live nodes are in the two lists, which are ranked by count, and `tails` is their index. -/
def ValidState (s : State) : Prop :=
  ∃ F S, Valid s F S ∧ (F ++ S).Perm (liveNodes s.regions)

def fastNumber (s : State) : Nat :=
  (liveNodes s.regions).countP fun n => s.loc n = .fast

/-- A valid state again, with the same nodes, as many of them fast as before, in which the count of
`node` is `k` and every other count is what it was. -/
structure Kept (s s' : State) (node : NodePtr) (k : Nat) : Prop where
  valid : ValidState s'
  live : liveNodes s'.regions = liveNodes s.regions
  fast : fastNumber s' = fastNumber s
  count : s'.count = Function.update s.count node k

section Valid

variable {s s' : State} {F S F' S' : List NodePtr} {node : NodePtr} {k : Nat}

theorem Valid.fastNumber_eq (h : Valid s F S) (hlive : (F ++ S).Perm (liveNodes s.regions)) :
    fastNumber s = F.length := by
  rw [fastNumber, ← hlive.countP_eq]
  exact h.countP_fast

theorem Repositioned.kept (h : Repositioned s s' F S F' S' node k) (hvalid : Valid s F S)
    (hlive : (F ++ S).Perm (liveNodes s.regions)) (hnode : node ∈ F ++ S) : Kept s s' node k := by
  have hregions := h.rest.regions
  have hlive' : (F' ++ S').Perm (liveNodes s'.regions) := by
    rw [hregions]
    exact (h.perm hvalid.ranked hnode).trans hlive
  refine ⟨⟨F', S', h.valid, hlive'⟩, congrArg liveNodes hregions, ?_, h.count⟩
  calc
    fastNumber s' = F'.length := h.valid.fastNumber_eq hlive'
    _ = F.length := h.length
    _ = fastNumber s := (hvalid.fastNumber_eq hlive).symm

/-- The entries of `tails` have the counts they stand for. -/
theorem ValidState.count_of_tails (h : ValidState s) (node : NodePtr) (k : Nat)
    (htail : s.tails[k]? = some (some node)) : s.count node = k := by
  rcases h with ⟨F, S, hvalid, _⟩
  have hlt := (List.getElem?_eq_some_iff.1 htail).1
  rw [hvalid.tails, length_index] at hlt
  rw [hvalid.tails_get (by omega), Option.some.injEq] at htail
  exact (mem_of_lastOf htail).2

end Valid

/-! ## Demotion -/

/-- The part of `handleSample` that takes out the chunk in `samples[currentLoc]`. -/
def demoteCurrent (s : State) : Option State := do
  let old ← s.samples[s.currentLoc]?
  leaveRing s old

theorem demotion_keeps_valid (s : State) (hvalid : ValidState s) (node : NodePtr)
    (hlive : node ∈ liveNodes s.regions) (hring : s.samples[s.currentLoc]? = some (some node))
    (hcount : 1 ≤ s.count node) :
    ∃ s', demoteCurrent s = some s' ∧ Kept s s' node (s.count node - 1) := by
  rcases hvalid with ⟨F, S, hv, hperm⟩
  have hnode : node ∈ F ++ S := hperm.symm.subset hlive
  rcases hv.demote_spec hnode hcount with ⟨s', F', S', hs', hmoved⟩
  refine ⟨s', ?_, hmoved.kept hv hperm hnode⟩
  simp only [demoteCurrent, hring, Option.bind_eq_bind, Option.bind_some, leaveRing]
  exact hs'

/-- Two fast chunks and a slow one; the first two were sampled in a window of two. -/
theorem demotion_keeps_valid_one_sample :
    ∃ s, Run system (windowInit 2 0x10000 2)
        [.alloc 7 ⟨0x18000, [⟨0x18000, 0x10000⟩, ⟨0x28000, 0x10000⟩, ⟨0x38000, 0x10000⟩], 0x800⟩,
          .sample 0x18000 (some ⟨7, 0⟩), .sample 0x28000 (some ⟨7, 1⟩)] s ∧
      s.samples[s.currentLoc]? = some (some ⟨7, 0⟩) ∧
      ∃ s', demoteCurrent s = some s' ∧ Kept s s' ⟨7, 0⟩ 0 := by
  rcases Run.of_exec (system.restrict StepOk) (windowInit 2 0x10000 2)
    [.alloc 7 ⟨0x18000, [⟨0x18000, 0x10000⟩, ⟨0x28000, 0x10000⟩, ⟨0x38000, 0x10000⟩], 0x800⟩,
      .sample 0x18000 (some ⟨7, 0⟩), .sample 0x28000 (some ⟨7, 1⟩)] (by decide) with ⟨s, hs, hrun⟩
  rcases Follows.run (by decide) (by decide) (by decide) hrun with ⟨F, S, hfollows⟩
  have hvalid : ValidState s := ⟨F, S, hfollows.valid, hfollows.live⟩
  obtain rfl := Option.some.inj hs
  exact ⟨_, hrun.of_restrict, by decide,
    demotion_keeps_valid _ hvalid ⟨7, 0⟩ (by decide) (by decide) (by decide)⟩

/-! ## Promotion -/

section Promotion

variable {s : State} {F S : List NodePtr} {node : NodePtr}

@[simp] theorem promoteBehind_tails (s : State) (node after : NodePtr) :
    (promoteBehind s node after).tails = s.tails := by
  unfold promoteBehind
  split <;> rfl

/-- The promotion of the one slow node below an occupied class: its predecessor is the node itself,
so `tails` keeps it where it was. -/
theorem Valid.promote_lonely (h : Valid s F [node]) (hc : s.count node + 1 ≤ s.windowSize)
    (habove : ∀ n ∈ F, s.count node < s.count n) {t : NodePtr}
    (ht : lastOf s.count (s.count node + 1) (F ++ [node]) = some t) :
    ∃ s', promote s node = some s' ∧ s'.tails[s.count node]? = some (some node) ∧
      s'.count node = s.count node + 1 := by
  have hloc : s.loc node = .slow := h.loc_slow node (by simp)
  have hself : s.links.prev node = node := by
    have hcirc : Circular s.links [node] := h.lists.right.circular
    exact hcirc.prev_eq_self_iff.2 rfl
  have hlength : s.tails.length = s.windowSize + 1 := by rw [h.tails, length_index]
  have hown : s.tails[s.count node]? = some (some node) := by
    rw [h.tails_get (by omega), (lastOf_middle h.lists.nodup).2 (by simp)]
  have hnext : s.tails[s.count node + 1]? = some (some t) := by rw [h.tails_get hc, ht]
  have hreplace : replaceTail s node (some (prevInClass s node)) =
      some { s with tails := s.tails.set (s.count node) (some node) } := by
    have hprev : prevInClass s node = some node := by simp [prevInClass, hself]
    simp [replaceTail, hown, hprev, setTail_eq (show s.count node < s.tails.length by omega)]
  -- the fast list ends above `node`, so there is no migration
  have hbranch : promote s node = (promoteInPlace s node : Option State).bind fun s₁ =>
      some (s₁.setCount node (s.count node + 1)) := by
    rcases List.eq_nil_or_concat' F with rfl | ⟨F₁, f, rfl⟩
    · exact absurd rfl (h.fast_ne_nil (by simp))
    · have htail : s.fastTail = some f := by rw [h.fastTail_eq, List.getLast?_concat]
      have hhigh : s.count f > s.count node := habove f (by simp)
      simp [promote, hloc, htail, hhigh]
  have hwrite : s.count node + 1 <
      (promoteBehind { s with tails := s.tails.set (s.count node) (some node) } node t).tails.length := by
    simp [hlength]
    omega
  have hplace : (promoteInPlace s node : Option State) =
      (promoteBehind { s with tails := s.tails.set (s.count node) (some node) } node t).setTail
        (s.count node + 1) (some node) := by
    simp only [promoteInPlace, Option.pure_def, State.getTail_option, hnext, hreplace,
      Option.bind_eq_bind, Option.bind_some]
  rw [hbranch, hplace, setTail_eq hwrite]
  refine ⟨_, rfl, ?_, ?_⟩
  · have hlt : s.count node < s.tails.length := by omega
    simp [State.setCount, hlt]
  · simp [State.setCount]

end Promotion

/-- From every valid state the promotion ends in a valid state exactly if `node` is not lonely. -/
theorem promotion_keeps_valid_iff (s : State) (hvalid : ValidState s) (node : NodePtr)
    (hlive : node ∈ liveNodes s.regions) (hcount : s.count node + 2 ≤ s.windowSize) :
    (∃ s', promote s node = some s' ∧ Kept s s' node (s.count node + 1)) ↔ ¬ Lonely s node := by
  rcases hvalid with ⟨F, S, hv, hperm⟩
  have hnode : node ∈ F ++ S := hperm.symm.subset hlive
  constructor
  · rintro ⟨s', hs', hkept⟩ hlonely
    obtain rfl := hlonely.slow_eq hv hperm hnode
    have habove : ∀ n ∈ F, s.count node < s.count n := by
      intro n hn
      refine (hlonely.2.1 n (hperm.subset (by simp [hn])) ?_).2
      rintro rfl
      exact hv.lists.disjoint hn (by simp)
    rcases hlonely.2.2 with ⟨n, hn, hrank⟩
    have hoccupied : lastOf s.count (s.count node + 1) (F ++ [node]) ≠ none := by
      intro hnone
      exact lastOf_eq_none_iff.1 hnone n (hperm.symm.subset hn) hrank
    rcases Option.ne_none_iff_exists'.1 hoccupied with ⟨t, ht⟩
    rcases hv.promote_lonely (by omega) habove ht with ⟨s'', hs'', htail, hnew⟩
    obtain rfl : s'' = s' := Option.some.inj (hs''.symm.trans hs')
    -- the entry of the old class names `node`, whose count is one higher by now
    have hold := hkept.valid.count_of_tails _ _ htail
    omega
  · intro hlonely
    rcases hv.promote_spec hnode hcount (hv.lastOf_of_not_lonely hperm hlonely) with ⟨s', F', S', hs', hmoved⟩
    exact ⟨s', hs', hmoved.kept hv hperm hnode⟩

/-- Of two fast chunks one was sampled, and the slow one is sampled next. -/
theorem promotion_keeps_valid_tie :
    ∃ s, Run system (windowInit 2 0x10000 3)
        [.alloc 7 ⟨0x18000, [⟨0x18000, 0x10000⟩, ⟨0x28000, 0x10000⟩, ⟨0x38000, 0x10000⟩], 0x800⟩,
          .sample 0x18000 (some ⟨7, 0⟩)] s ∧
      ∃ s', promote s ⟨7, 2⟩ = some s' ∧ Kept s s' ⟨7, 2⟩ 1 := by
  rcases Run.of_exec (system.restrict StepOk) (windowInit 2 0x10000 3)
    [.alloc 7 ⟨0x18000, [⟨0x18000, 0x10000⟩, ⟨0x28000, 0x10000⟩, ⟨0x38000, 0x10000⟩], 0x800⟩,
      .sample 0x18000 (some ⟨7, 0⟩)] (by decide) with ⟨s, hs, hrun⟩
  rcases Follows.run (by decide) (by decide) (by decide) hrun with ⟨F, S, hfollows⟩
  have hvalid : ValidState s := ⟨F, S, hfollows.valid, hfollows.live⟩
  obtain rfl := Option.some.inj hs
  exact ⟨_, hrun.of_restrict,
    (promotion_keeps_valid_iff _ hvalid ⟨7, 2⟩ (by decide) (by decide)).2 (by decide)⟩

/-- Both fast chunks were sampled once and the slow one never: after its promotion `tails[0]` still
names it, with count 1. -/
theorem promotion_leaves_tail :
    ∃ s s', Run system (windowInit 2 0x10000 3)
        [.alloc 7 ⟨0x18000, [⟨0x18000, 0x10000⟩, ⟨0x28000, 0x10000⟩, ⟨0x38000, 0x10000⟩], 0x800⟩,
          .sample 0x18000 (some ⟨7, 0⟩), .sample 0x28000 (some ⟨7, 1⟩)] s ∧
      ValidState s ∧ (⟨7, 2⟩ : NodePtr) ∈ liveNodes s.regions ∧
      s.count ⟨7, 2⟩ + 2 ≤ s.windowSize ∧
      promote s ⟨7, 2⟩ = some s' ∧ s'.tails[0]? = some (some ⟨7, 2⟩) ∧ s'.count ⟨7, 2⟩ = 1 ∧
      ¬ ValidState s' := by
  rcases Run.of_exec (system.restrict StepOk) (windowInit 2 0x10000 3)
    [.alloc 7 ⟨0x18000, [⟨0x18000, 0x10000⟩, ⟨0x28000, 0x10000⟩, ⟨0x38000, 0x10000⟩], 0x800⟩,
      .sample 0x18000 (some ⟨7, 0⟩), .sample 0x28000 (some ⟨7, 1⟩)] (by decide) with ⟨s, hs, hrun⟩
  rcases Follows.run (by decide) (by decide) (by decide) hrun with ⟨F, S, hfollows⟩
  have hvalid : ValidState s := ⟨F, S, hfollows.valid, hfollows.live⟩
  obtain rfl := Option.some.inj hs
  refine ⟨_, _, hrun.of_restrict, hvalid, by decide, by decide, rfl, by decide, by decide, ?_⟩
  intro hbroken
  have hcount := hbroken.count_of_tails ⟨7, 2⟩ 0 (by decide)
  revert hcount
  decide

end Window
end Shambles
