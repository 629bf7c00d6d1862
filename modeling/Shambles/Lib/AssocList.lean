import Mathlib.Tactic

/-!
# AssocList — tables as association lists

A table is a list of pairs, read with `List.lookup`.  New entries go to the front; an entry is
removed by filtering its key out.
-/

namespace Shambles
namespace AssocList

variable {κ β : Type*} [DecidableEq κ] {rs : List (κ × β)} {p q : κ} {v : β}

theorem lookup_cons_eq (p q : κ) (v : β) (rs : List (κ × β)) :
    ((p, v) :: rs).lookup q = if q = p then some v else rs.lookup q := by
  by_cases hqp : q = p
  · simp [hqp]
  · have hbeq : (q == p) = false := by simpa using hqp
    simp [List.lookup_cons, hbeq, hqp]

/-- Forgetting `p` hides `p` and nothing else. -/
theorem lookup_filter_ne (p q : κ) (rs : List (κ × β)) :
    (rs.filter (fun r => r.1 ≠ p)).lookup q = if q = p then none else rs.lookup q := by
  induction rs with
  | nil => simp
  | cons r rs ih =>
      rcases r with ⟨k, v⟩
      by_cases hkp : k = p
      · have hdrop : ((k, v) :: rs).filter (fun r => r.1 ≠ p) = rs.filter (fun r => r.1 ≠ p) := by
          simp [hkp]
        rw [hdrop, ih, lookup_cons_eq, hkp]
        by_cases hqp : q = p <;> simp [hqp]
      · have hkeep : ((k, v) :: rs).filter (fun r => r.1 ≠ p) =
            (k, v) :: rs.filter (fun r => r.1 ≠ p) := by
          simp [hkp]
        rw [hkeep, lookup_cons_eq, lookup_cons_eq, ih]
        by_cases hqk : q = k
        · simp [hqk, hkp]
        · simp [hqk]

theorem mem_of_lookup (h : rs.lookup p = some v) : (p, v) ∈ rs := by
  rcases List.lookup_eq_some_iff.1 h with ⟨l₁, l₂, heq, _⟩
  simp [heq]

theorem notMem_keys_of_lookup (h : rs.lookup p = none) : p ∉ rs.map Prod.fst := by
  intro hmem
  rcases List.mem_map.1 hmem with ⟨⟨q, r⟩, hqr, rfl⟩
  have hne := List.lookup_eq_none_iff.1 h (q, r) hqr
  simp at hne

/-! ## Unique keys -/

theorem lookup_of_mem (hkeys : (rs.map Prod.fst).Nodup) (h : (p, v) ∈ rs) :
    rs.lookup p = some v := by
  induction rs with
  | nil => cases h
  | cons r rs ih =>
      rcases r with ⟨q, r⟩
      rcases List.nodup_cons.1 hkeys with ⟨hq, hkeys'⟩
      rw [lookup_cons_eq]
      rcases List.mem_cons.1 h with heq | hmem
      · rcases Prod.mk.inj heq with ⟨rfl, rfl⟩
        simp
      · have hpq : p ≠ q := fun hpq => hq (List.mem_map.2 ⟨(p, v), hmem, hpq⟩)
        simpa [hpq] using ih hkeys' hmem

/-- An entry and the rest of the table. -/
theorem perm_cons_filter (hkeys : (rs.map Prod.fst).Nodup) (h : rs.lookup p = some v) :
    rs.Perm ((p, v) :: rs.filter fun r => r.1 ≠ p) := by
  induction rs with
  | nil => simp at h
  | cons r rs ih =>
      rcases r with ⟨q, r⟩
      rcases List.nodup_cons.1 hkeys with ⟨hq, hkeys'⟩
      rw [lookup_cons_eq] at h
      by_cases hpq : p = q
      · subst hpq
        obtain rfl : r = v := by simpa using h
        have hall : rs.filter (fun x => x.1 ≠ p) = rs := by
          apply List.filter_eq_self.2
          intro x hx
          have hne : x.1 ≠ p := fun hxp => hq (List.mem_map.2 ⟨x, hx, hxp⟩)
          simpa using hne
        have hdrop : ((p, r) :: rs).filter (fun x => x.1 ≠ p) =
            rs.filter (fun x => x.1 ≠ p) := by
          simp
        rw [hdrop, hall]
      · have hrest := ih hkeys' (by simpa [hpq] using h)
        have hkeep : ((q, r) :: rs).filter (fun x => x.1 ≠ p) =
            (q, r) :: rs.filter (fun x => x.1 ≠ p) := by
          simp [Ne.symm hpq]
        rw [hkeep]
        exact (hrest.cons (q, r)).trans (List.Perm.swap _ _ _)

end AssocList
end Shambles
