import Shambles.Lru.Schedules

/-!
# WorkingSet — the LRU plugin settles

A program that goes on accessing the same few chunks should be left alone once they are fast.  As
long as the samples are of no more chunks than the fast memory holds, each of these chunks stays fast
from its first sample on, wherever the plugin started from: it misses at that sample at most.  When
they have all been sampled, nothing is moved any more.
-/

namespace Shambles
namespace Lru

open Structures Plugins Recency

/-- A hit moves nothing. -/
theorem handleSample_fast {s s' : State} {addr : Nat} {n : NodePtr} (hfast : s.loc n = .fast)
    (h : handleSample s addr (some n) = some s') :
    s'.loc = s.loc ∧ bindings s'.trace = bindings s.trace := by
  obtain rfl : sampleFast s addr n = s' := by simpa [handleSample, hfast] using h
  refine ⟨rfl, ?_⟩
  simp [sampleFast, State.pushMru, State.emit, State.dqMru, bindings]

section Runs

variable {C : Nat} {t u : State} {L xs : List NodePtr} {es : List Event}

/-- Samples of chunks that were sampled before, none of them pushed out since. -/
theorem steady (hC : 1 ≤ C) (href : Refines C t (touchAll L xs)) (hfit : xs.toFinset.card ≤ C)
    (h : Run system t es u) (hes : ∀ e ∈ es, IsSample e) (hagain : ∀ n ∈ sampled es, n ∈ xs) :
    hits u = hits t + (sampled es).length ∧ u.loc = t.loc ∧
      bindings u.trace = bindings t.trace := by
  induction h with
  | nil => exact ⟨rfl, rfl, rfl⟩
  | @snoc es u u' e hrun hen hst ih =>
      have hes' : ∀ e ∈ es, IsSample e := fun e he => hes e (List.mem_append_left _ he)
      rw [sampled_append] at hagain
      have hagain' : ∀ n ∈ sampled es, n ∈ xs := fun n hn => hagain n (List.mem_append_left _ hn)
      rcases ih hes' hagain' with ⟨hhits, hloc, hbindings⟩
      rw [hits_step hst, hhits, sampled_append, List.length_append]
      cases e with
      | alloc p region => exact False.elim (hes (.alloc p region) (by simp))
      | free p => exact False.elim (hes (.free p) (by simp))
      | sample addr chunk =>
          cases chunk with
          | none =>
              obtain rfl := Option.some.inj hst
              refine ⟨rfl, hloc, ?_⟩
              simpa [State.emit, bindings_append, bindings] using hbindings
          | some n =>
              -- the touches so far are of the same chunks as the first ones
              have href' := (hits_add_misses hC href hrun hes').1
              have hset : (xs ++ sampled es).toFinset = xs.toFinset := by
                rw [List.toFinset_append, Finset.union_eq_left]
                intro m hm
                exact List.mem_toFinset.2 (hagain' m (List.mem_toFinset.1 hm))
              have hn : n ∈ xs ++ sampled es :=
                List.mem_append_left _ (hagain n (by simp [sampled]))
              have htake := mem_take_touchAll L (hset ▸ hfit) hn
              have hfast : u.loc n = .fast := by
                refine (href'.mem_take_iff hen).2 ?_
                simpa [touchAll] using htake
              rcases handleSample_fast hfast hst with ⟨hloc', hbindings'⟩
              refine ⟨?_, hloc'.trans hloc, hbindings'.trans hbindings⟩
              simp [newHits, hfast, sampled]
              omega

/-- What was sampled is fast. -/
theorem fast_of_sampled (hC : 1 ≤ C) (href : Refines C t L) (h : Run system t es u)
    (hes : ∀ e ∈ es, IsSample e) (hfit : (sampled es).toFinset.card ≤ C) {n : NodePtr}
    (hn : n ∈ sampled es) : u.loc n = .fast := by
  rcases hits_add_misses hC href h hes with ⟨hrefu, hmem, -⟩
  have hlive := (hrefu.live n).1 ((mem_touchAll hmem).2 (hmem n hn))
  exact (hrefu.mem_take_iff hlive).2 (mem_take_touchAll L hfit hn)

end Runs

/-- What the plugin promises about samples of no more chunks than fit. -/
structure Settles (s t : State) (samples : List Event) : Prop where
  /-- After any of the samples, every chunk sampled so far is fast: its first sample may miss, and
  none after that. -/
  again : ∀ before after m, samples = before ++ after → Run system s before m →
    ∀ n ∈ sampled before, m.loc n = .fast
  /-- In total there are no more misses than chunks. -/
  once : hits s + (sampled samples).length ≤ hits t + (sampled samples).toFinset.card
  fast : ∀ n ∈ sampled samples, t.loc n = .fast
  /-- From then on these chunks hit, and nothing is bound any more. -/
  steady : ∀ more u, Run system t more u → (∀ e ∈ more, IsSample e) →
    (∀ n ∈ sampled more, n ∈ sampled samples) →
      hits u = hits t + (sampled more).length ∧ u.loc = t.loc ∧
        bindings u.trace = bindings t.trace

theorem lru_settles {C : Nat} (hC : 1 ≤ C) (hmax : C ≤ INT_MAX) {es : List Event} {s : State}
    (h : Run system (lruInit C) es s) {samples : List Event} {t : State}
    (hrun : Run system s samples t) (hsamples : ∀ e ∈ samples, IsSample e)
    (hfit : (sampled samples).toFinset.card ≤ C) : Settles s t samples := by
  have href := Refines.run hmax h
  rcases hits_add_misses hC href hrun hsamples with ⟨hreft, -, hcount⟩
  have hmisses := misses_le_card (recency es) hfit
  refine ⟨?_, by omega, ?_, ?_⟩
  · intro before after m hsplit hbefore n hn
    have hle : (sampled before).toFinset.card ≤ C := by
      refine (Finset.card_le_card ?_).trans hfit
      rw [hsplit, sampled_append, List.toFinset_append]
      exact Finset.subset_union_left
    refine fast_of_sampled hC href hbefore ?_ hle hn
    intro e he
    exact hsamples e (hsplit ▸ List.mem_append_left _ he)
  · intro n hn
    exact fast_of_sampled hC href hrun hsamples hfit hn
  · intro more u hmore hsamples' hagain
    exact steady hC hreft hfit hmore hsamples' hagain

/-- Room for two of three chunks. -/
def twoOfThree : State :=
  allocRegion (lruInit 2) 1
    ⟨0x18000, [⟨0x18000, 0x10000⟩, ⟨0x28000, 0x10000⟩, ⟨0x38000, 0x10000⟩], 0x900⟩

/-- The second and the third are sampled, and the second again. -/
def secondAndThird : List Event :=
  [.sample 0x28010 (some ⟨1, 1⟩), .sample 0x38010 (some ⟨1, 2⟩), .sample 0x28010 (some ⟨1, 1⟩)]

theorem lru_settles_two_of_three :
    ∃ t, Run system twoOfThree secondAndThird t ∧ (hits twoOfThree = 0 ∧ hits t = 2) ∧
      Settles twoOfThree t secondAndThird := by
  have hrun : Run system (lruInit 2) ([] ++ [.alloc 1 ⟨0x18000, [⟨0x18000, 0x10000⟩,
      ⟨0x28000, 0x10000⟩, ⟨0x38000, 0x10000⟩], 0x900⟩]) twoOfThree :=
    Run.nil.snoc (by decide) rfl
  rcases Run.of_exec_any system twoOfThree secondAndThird
    (fun t => hits twoOfThree = 0 ∧ hits t = 2) (by decide) with ⟨t, hrun', hhits⟩
  exact ⟨t, hrun', hhits, lru_settles (by decide) (by decide) hrun hrun' (by decide) (by decide)⟩

end Lru
end Shambles
