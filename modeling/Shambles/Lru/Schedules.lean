import Shambles.Lib.Paging
import Shambles.Lru.Reuse

/-!
# Schedules — the LRU plugin against a placement that knows the samples to come

Between allocations and releases the plugin only swaps chunks.  Any other way to do so is a schedule:
after every sample it says which chunks are fast, as many as the plugin has.  A schedule may know all
samples in advance; it pays for every sample of a slow chunk, and for every chunk it fetches without
that chunk having been sampled.  Samples of addresses that no tracked chunk is found for move nothing
and cost nothing.
-/

namespace Shambles
namespace Lru

open Structures Plugins Recency

def IsSample : Event → Prop
  | .sample _ _ => True
  | _ => False

instance : (e : Event) → Decidable (IsSample e)
  | .sample _ _ => isTrue trivial
  | .alloc _ _ => isFalse id
  | .free _ => isFalse id

/-- The tracked chunks that are sampled; samples of other addresses do not count. -/
def sampled (es : List Event) : List NodePtr :=
  es.flatMap fun
    | .sample _ (some n) => [n]
    | _ => []

theorem sampled_append (es fs : List Event) :
    sampled (es ++ fs) = sampled es ++ sampled fs := by
  simp [sampled]

/-- The placement of the plugin. -/
def fastNodes (s : State) : Finset NodePtr :=
  ((liveNodes s.regions).filter fun n => s.loc n = .fast).toFinset

section Runs

variable {C : Nat} {s t : State} {L : List NodePtr} {es : List Event}

/-- While chunks are only sampled, the samples that are not hits are the misses of the recency
list. -/
theorem hits_add_misses (hC : 1 ≤ C) (href : Refines C s L) (h : Run system s es t)
    (hes : ∀ e ∈ es, IsSample e) :
    Refines C t (touchAll L (sampled es)) ∧ (∀ n ∈ sampled es, n ∈ L) ∧
      hits t + misses C L (sampled es) = hits s + (sampled es).length := by
  induction h with
  | nil => exact ⟨href, by simp [sampled], rfl⟩
  | @snoc es t t' e hrun hen hst ih =>
      rcases ih fun e he => hes e (List.mem_append_left _ he) with ⟨href', hmem, hcount⟩
      rcases href'.step hC hen with ⟨u, hu, hnext⟩
      obtain rfl : u = t' := Option.some.inj (hu.symm.trans hst)
      rw [hits_step hst, sampled_append]
      cases e with
      | alloc p region => exact False.elim (hes (.alloc p region) (by simp))
      | free p => exact False.elim (hes (.free p) (by simp))
      | sample addr chunk =>
          cases chunk with
          | none =>
              have hnone : sampled [.sample addr none] = [] := rfl
              rw [hnone, List.append_nil]
              exact ⟨hnext, hmem, hcount⟩
          | some n =>
              have hmiss : newHits t.loc (.sample addr (some n)) +
                  (if n ∈ (touchAll L (sampled es)).take C then 0 else 1) = 1 := by
                simp only [newHits, href'.mem_take_iff hen]
                split <;> rfl
              have hone : sampled [.sample addr (some n)] = [n] := rfl
              rw [hone, touchAll_snoc, misses_snoc, List.length_append, List.length_singleton]
              refine ⟨hnext, ?_, by omega⟩
              intro m hm
              rcases List.mem_append.1 hm with hm | hm
              · exact hmem m hm
              · obtain rfl := List.mem_singleton.1 hm
                exact (mem_touchAll hmem).1 ((href'.live m).2 hen)

end Runs

/-- From every state the plugin reaches, over every sequence of samples: its hits, and `C + 1` times
what any schedule pays that starts from the same placement, are together no fewer than the samples
of tracked chunks. -/
theorem lru_competitive {C : Nat} (hC : 1 ≤ C) (hmax : C ≤ INT_MAX) {es : List Event} {s : State}
    (h : Run system (lruInit C) es s) {samples : List Event} {t : State}
    (hrun : Run system s samples t) (hsamples : ∀ e ∈ samples, IsSample e)
    {schedule : List (NodePtr × Finset NodePtr)}
    (hsampled : schedule.map Prod.fst = sampled samples)
    (hplaces : ∀ x ∈ schedule, x.2.card = (fastNodes s).card) :
    hits s + schedule.length ≤ hits t + (C + 1) * cost (fastNodes s) schedule := by
  have href := Refines.run hmax h
  have hnodup : (recency es).Nodup := (sorted_run hmax h).nodup
  have hfast : fastNodes s = ((recency es).take C).toFinset := by
    ext n
    simp only [fastNodes, List.mem_toFinset, List.mem_filter, (Described.run h).mem_liveNodes,
      decide_eq_true_eq]
    constructor
    · rintro ⟨hn, hfast⟩
      exact (href.mem_take_iff hn).1 hfast
    · intro hn
      have hlive := (href.live n).1 (List.mem_of_mem_take hn)
      exact ⟨hlive, (href.mem_take_iff hlive).2 hn⟩
  have hcard : (fastNodes s).card = ((recency es).take C).length := by
    rw [hfast, List.toFinset_card_of_nodup ((List.take_sublist _ _).nodup hnodup)]
  have hnone : potential (fastNodes s) C (recency es) = 0 := by
    refine potential_eq_zero ?_
    intro n hn
    rw [hfast]
    exact List.mem_toFinset.2 hn
  rcases hits_add_misses hC href hrun hsamples with ⟨_, hmem, hcount⟩
  have hlen : schedule.length = (sampled samples).length := by
    rw [← hsampled, List.length_map]
  have hlive : ∀ x ∈ schedule, x.1 ∈ recency es := by
    intro x hx
    exact hmem x.1 (hsampled ▸ List.mem_map_of_mem hx)
  have hmisses := misses_le hC hnodup hlive hcard hplaces
  rw [hsampled, hnone] at hmisses
  omega

/-- Room for one of two chunks. -/
def oneOfTwo : State :=
  allocRegion (lruInit 1) 1 ⟨0x18000, [⟨0x18000, 0x10000⟩, ⟨0x28000, 0x10000⟩], 0x900⟩

/-- The schedule that never moves anything while the two are sampled in turn. -/
def stay : List (NodePtr × Finset NodePtr) :=
  [(⟨1, 1⟩, fastNodes oneOfTwo), (⟨1, 0⟩, fastNodes oneOfTwo)]

theorem lru_competitive_in_turn :
    ∃ t, Run system oneOfTwo [.sample 0x28010 (some ⟨1, 1⟩), .sample 0x18010 (some ⟨1, 0⟩)] t ∧
      hits oneOfTwo + stay.length ≤ hits t + (1 + 1) * cost (fastNodes oneOfTwo) stay := by
  have hrun : Run system (lruInit 1) ([] ++
      [.alloc 1 ⟨0x18000, [⟨0x18000, 0x10000⟩, ⟨0x28000, 0x10000⟩], 0x900⟩]) oneOfTwo :=
    Run.nil.snoc (by decide) rfl
  rcases Run.of_exec system oneOfTwo
    [.sample 0x28010 (some ⟨1, 1⟩), .sample 0x18010 (some ⟨1, 0⟩)] (by decide) with ⟨t, _, hrun'⟩
  have hplaces : ∀ x ∈ stay, x.2.card = (fastNodes oneOfTwo).card := by simp [stay]
  exact ⟨t, hrun', lru_competitive (by decide) (by decide) hrun hrun' (by decide) rfl hplaces⟩

end Lru
end Shambles
