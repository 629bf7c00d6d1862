import Shambles.Structures.RegionTree

/-!
# Slots — which slots a region registers in

The three phases in terms of slot numbers.  A region that starts at `addr` and has `size` bytes,
at least one slot full, registers as head in the slot of an unaligned start, as full in the slots
strictly between the first and the last, and as tail in the slot of an unaligned end.  A region
that ends with the address space has `end = 0`: the loop over full slots does not run at all and
the tail goes to the second slot.

What the lookup needs from this is that a registration in the high half covers the last byte of
its slot and one in the low half the first byte (`mem_slots_covers`), and that a region registers
at most once per slot (`slots_pairwise`).
-/

namespace Shambles
namespace Structures

open RadixTree

/-- The loop `while(addr0 < lim)`, one iteration at a time. -/
theorem fullSlots_loop {step : Nat} (hstep : 0 < step) (lim addr0 : Nat) :
    fullSlots step lim addr0 =
      if addr0 < lim then addr0 :: fullSlots step lim (addr0 + step) else [] := by
  unfold fullSlots
  by_cases hlt : addr0 < lim
  · have hcount : (lim - addr0 + step - 1) / step =
        (lim - (addr0 + step) + step - 1) / step + 1 := by
      by_cases hmore : addr0 + step ≤ lim
      · have hsplit : lim - addr0 + step - 1 = (lim - (addr0 + step) + step - 1) + step := by omega
        rw [hsplit, Nat.add_div_right _ hstep]
      · -- The last iteration: less than one slot is left.
        have hlast : (lim - addr0 + step - 1) / step = 1 :=
          Nat.div_eq_of_lt_le (by omega) (by omega)
        have hdone : (lim - (addr0 + step) + step - 1) / step = 0 :=
          Nat.div_eq_of_lt (by omega)
        rw [hlast, hdone]
    rw [if_pos hlt, hcount, List.range'_succ]
  · have hcount : (lim - addr0 + step - 1) / step = 0 := Nat.div_eq_of_lt (by omega)
    rw [if_neg hlt, hcount]
    rfl

/-- Between two slot boundaries the loop goes through the slot numbers. -/
theorem fullSlots_eq {step : Nat} (hstep : 0 < step) (n : Nat) : ∀ m,
    fullSlots step (n * step) (m * step) = (List.range' m (n - m)).map (· * step) := by
  intro m
  induction hk : n - m generalizing m with
  | zero =>
      have hle : n * step ≤ m * step := Nat.mul_le_mul_right _ (by omega)
      rw [fullSlots_loop hstep, if_neg (by omega)]
      rfl
  | succ k ih =>
      have hlt : m * step < n * step := Nat.mul_lt_mul_of_pos_right (by omega) hstep
      have hnext : m * step + step = (m + 1) * step := by
        rw [Nat.add_mul, Nat.one_mul]
      rw [fullSlots_loop hstep, if_pos hlt, hnext, ih (m + 1) (by omega), List.range'_succ]
      rfl

theorem shl64_one {r : Nat} (hr : r < 64) : shl64 1 r = 2 ^ r := by
  rw [shl64_eq (k := 1) (by decide) (by omega) (by decide), Nat.one_mul]

/-- `addr & ~((1LLU << REGION_SHIFT) - 1)` -/
theorem and_not64 {a r : Nat} (ha : a < 2 ^ 64) (hr : r < 64) :
    a &&& not64 (2 ^ r - 1) = a / 2 ^ r * 2 ^ r := by
  have hpow : 2 ^ r < 2 ^ 64 := Nat.pow_lt_pow_right (by decide) hr
  have hnot : not64 (2 ^ r - 1) = 2 ^ 64 - ((2 ^ r - 1) + 1) := by
    unfold not64
    omega
  rw [hnot, ← Nat.shiftRight_eq_div_pow, ← Nat.shiftLeft_eq]
  apply Nat.eq_of_testBit_eq
  intro i
  rw [Nat.testBit_and, Nat.testBit_two_pow_sub_succ (by omega), Nat.testBit_shiftLeft,
    Nat.testBit_shiftRight, Nat.testBit_two_pow_sub_one]
  by_cases hri : r ≤ i
  · have hidx : r + (i - r) = i := by omega
    by_cases hi : i < 64
    · simp [hri, hidx, hi]
    · have hzero : a.testBit i = false :=
        Nat.testBit_lt_two_pow (lt_of_lt_of_le ha (Nat.pow_le_pow_right (by decide) (by omega)))
      simp [hidx, hzero]
  · have hlt : i < r := by omega
    simp [hri, hlt]

section Slots

variable {g : Geometry} {addr size : Nat}

theorem Geometry.Regular.regionShift_lt (h : g.Regular) : g.regionShift < 53 := by
  have hbound := h.bound
  rw [h.nonLeafShift0] at hbound
  omega

theorem Geometry.slot_eq (g : Geometry) (a : Nat) : g.slot a = a / 2 ^ g.regionShift :=
  Nat.shiftRight_eq_div_pow a g.regionShift

@[simp] theorem Geometry.slot_mul (g : Geometry) (n : Nat) : g.slot (n * 2 ^ g.regionShift) = n := by
  rw [Geometry.slot_eq, Nat.mul_div_cancel _ (Nat.two_pow_pos _)]

theorem Geometry.slot_bounds (g : Geometry) (a : Nat) :
    g.slot a * 2 ^ g.regionShift ≤ a ∧
      a < g.slot a * 2 ^ g.regionShift + 2 ^ g.regionShift := by
  have hdiv := Nat.div_add_mod' a (2 ^ g.regionShift)
  have hmod := Nat.mod_lt a (Nat.two_pow_pos g.regionShift)
  rw [Geometry.slot_eq]
  omega

/-- The three phases in slot numbers. -/
theorem slots_eq (h : g.Regular) (hsize : 2 ^ g.regionShift ≤ size)
    (hend : addr + size ≤ 2 ^ 64) :
    slots g addr (wrap64 (addr + size)) =
      (if addr % 2 ^ g.regionShift ≠ 0 then [(addr, Phase.head)] else []) ++
        if addr + size < 2 ^ 64 then
          (List.range' (g.slot addr + 1) (g.slot (addr + size) - (g.slot addr + 1))).map
              (fun n => (n * 2 ^ g.regionShift, Phase.full)) ++
            if (addr + size) % 2 ^ g.regionShift ≠ 0 then
              [(g.slot (addr + size) * 2 ^ g.regionShift, Phase.tail)]
            else []
        else if (g.slot addr + 1) * 2 ^ g.regionShift < 2 ^ 64 then
          [((g.slot addr + 1) * 2 ^ g.regionShift, Phase.tail)]
        else [] := by
  have hr : g.regionShift < 64 := by
    have hlt := h.regionShift_lt
    omega
  have hB : 0 < 2 ^ g.regionShift := Nat.two_pow_pos _
  have haddr : addr < 2 ^ 64 := by omega
  have hwrapped : wrap64 (addr + size) < 2 ^ 64 := Nat.mod_lt _ (by decide)
  simp only [slots, shl64_one hr, Nat.and_two_pow_sub_one_eq_mod, and_not64 haddr hr,
    and_not64 hwrapped hr, Geometry.slot_eq]
  generalize 2 ^ g.regionShift = B at *
  have hslot : addr / B * B ≤ addr := Nat.div_mul_le_self _ _
  have hnext : addr / B * B + B = (addr / B + 1) * B := by rw [Nat.add_mul, Nat.one_mul]
  by_cases hlt : addr + size < 2 ^ 64
  · -- `end` does not wrap: the loop runs from the slot behind `addr` to the slot of `end`.
    have hwrap : wrap64 (addr + size) = addr + size := wrap64_of_lt hlt
    have hwrap' : wrap64 ((addr / B + 1) * B) = (addr / B + 1) * B := wrap64_of_lt (by omega)
    have hle : addr / B + 1 ≤ (addr + size) / B := by
      rw [Nat.le_div_iff_mul_le hB]
      omega
    have hlast : (addr / B + 1) * B + ((addr + size) / B - (addr / B + 1)) * B =
        (addr + size) / B * B := by
      rw [← Nat.add_mul, Nat.add_sub_cancel' hle]
    have hmod : (addr + size) / B * B + (addr + size) % B = addr + size := Nat.div_add_mod' _ _
    have htail : (addr + size) / B * B ≠ addr + size ↔ (addr + size) % B ≠ 0 := by omega
    simp only [hnext, hwrap, hwrap', fullSlots_eq hB, List.length_map, List.length_range', hlast,
      List.map_map, Function.comp_def, htail, if_pos hlt, List.append_assoc]
  · -- The region ends with the address space and `end` is 0.
    have hall : addr + size = 2 ^ 64 := by omega
    have hwrap : wrap64 (addr + size) = 0 := by
      rw [hall]
      decide
    have hnone : ∀ m, fullSlots B 0 (m * B) = [] := by
      intro m
      rw [fullSlots_loop hB, if_neg (by omega)]
    simp only [hnext, hwrap, Nat.zero_div, Nat.zero_mul, if_neg hlt]
    -- No slot is below `end`, so the loop is skipped and the slot behind `addr` is taken for the
    -- tail, unless that one has wrapped to 0 as well.
    by_cases hfits : (addr / B + 1) * B < 2 ^ 64
    · have hne : (addr / B + 1) * B ≠ 0 := by omega
      rw [wrap64_of_lt hfits, hnone, if_pos hfits]
      simp [hne]
    · have hfull : (addr / B + 1) * B = 2 ^ 64 := by omega
      have hzero : wrap64 ((addr / B + 1) * B) = 0 * B := by
        rw [hfull, Nat.zero_mul]
        decide
      rw [hzero, hnone, if_neg hfits]
      simp

/-- The slots of a region, one by one. -/
theorem mem_slots_iff (h : g.Regular) (hsize : 2 ^ g.regionShift ≤ size)
    (hend : addr + size ≤ 2 ^ 64) {a : Nat} {phase : Phase} :
    (a, phase) ∈ slots g addr (wrap64 (addr + size)) ↔
      (phase = .head ∧ a = addr ∧ addr % 2 ^ g.regionShift ≠ 0) ∨
      (phase = .full ∧ addr + size < 2 ^ 64 ∧ ∃ n, g.slot addr < n ∧ n < g.slot (addr + size) ∧
        a = n * 2 ^ g.regionShift) ∨
      (phase = .tail ∧ addr + size < 2 ^ 64 ∧ (addr + size) % 2 ^ g.regionShift ≠ 0 ∧
        a = g.slot (addr + size) * 2 ^ g.regionShift) ∨
      (phase = .tail ∧ addr + size = 2 ^ 64 ∧ (g.slot addr + 1) * 2 ^ g.regionShift < 2 ^ 64 ∧
        a = (g.slot addr + 1) * 2 ^ g.regionShift) := by
  rw [slots_eq h hsize hend]
  -- The end of the address space is only compared with; its value would slow `simp` down.
  generalize (2 : Nat) ^ 64 = M at hend ⊢
  by_cases hlt : addr + size < M
  · have hne : addr + size ≠ M := Nat.ne_of_lt hlt
    cases phase with
    | head => simp [hlt, and_comm]
    | full =>
        simp only [hlt, if_true, List.mem_append, List.mem_map, List.mem_range'_1]
        constructor
        · rintro (hhead | ⟨n, ⟨hlo, hhi⟩, heq⟩ | htail)
          · simp at hhead
          · have ha : a = n * 2 ^ g.regionShift := by simpa using heq.symm
            exact Or.inr (Or.inl ⟨trivial, trivial, n, by omega, by omega, ha⟩)
          · simp at htail
        · rintro (⟨hphase, _⟩ | ⟨_, _, n, hlo, hhi, rfl⟩ | ⟨hphase, _⟩ | ⟨hphase, _⟩)
          · cases hphase
          · exact Or.inr (Or.inl ⟨n, by omega, rfl⟩)
          · cases hphase
          · cases hphase
    | tail => simp [hlt, hne, and_comm]
  · have heq : addr + size = M := by omega
    cases phase with
    | head => simp [heq, and_comm]
    | full => simp [heq]
    | tail => simp [heq, and_comm]

/-- A registration lies inside its region, and the half it writes belongs to the end of the slot
that the region covers: the last byte for the high half, the first byte for the low half. -/
theorem mem_slots_covers (h : g.Regular) (hsize : 2 ^ g.regionShift ≤ size)
    (hend : addr + size ≤ 2 ^ 64) {a : Nat} {phase : Phase}
    (hmem : (a, phase) ∈ slots g addr (wrap64 (addr + size))) :
    addr ≤ a ∧ a < addr + size ∧
      (phase.high = true → (g.slot a + 1) * 2 ^ g.regionShift ≤ addr + size) ∧
      (phase.low = true → addr ≤ g.slot a * 2 ^ g.regionShift) := by
  have hnext : ∀ n, (n + 1) * 2 ^ g.regionShift = n * 2 ^ g.regionShift + 2 ^ g.regionShift := by
    intro n
    rw [Nat.add_mul, Nat.one_mul]
  have hstart := g.slot_bounds addr
  rcases (mem_slots_iff h hsize hend).1 hmem with ⟨rfl, rfl, _⟩ | ⟨rfl, hlt, n, hlo, hhi, rfl⟩ |
    ⟨rfl, hlt, hmod, rfl⟩ | ⟨rfl, heq, hfits, rfl⟩
  -- One case per phase; the last two are the tail inside and at the end of the address space.
  · refine ⟨le_refl _, by omega, ?_, by simp [Phase.low]⟩
    intro _
    rw [hnext]
    omega
  · have hafter : (g.slot addr + 1) * 2 ^ g.regionShift ≤ n * 2 ^ g.regionShift :=
      Nat.mul_le_mul_right _ hlo
    have hbefore : (n + 1) * 2 ^ g.regionShift ≤ g.slot (addr + size) * 2 ^ g.regionShift :=
      Nat.mul_le_mul_right _ hhi
    have hlast := g.slot_bounds (addr + size)
    rw [hnext] at hafter hbefore
    rw [g.slot_mul, hnext]
    exact ⟨by omega, by omega, fun _ => by omega, fun _ => by omega⟩
  · have hlast := g.slot_bounds (addr + size)
    have hmod' : g.slot (addr + size) * 2 ^ g.regionShift + (addr + size) % 2 ^ g.regionShift =
        addr + size := by
      rw [Geometry.slot_eq]
      exact Nat.div_add_mod' _ _
    rw [g.slot_mul]
    exact ⟨by omega, by omega, by simp [Phase.high], fun _ => by omega⟩
  · rw [g.slot_mul]
    rw [hnext] at hfits ⊢
    exact ⟨by omega, by omega, by simp [Phase.high], fun _ => by omega⟩

/-- No slot twice: the slot numbers grow from phase to phase. -/
theorem slots_pairwise (h : g.Regular) (hsize : 2 ^ g.regionShift ≤ size)
    (hend : addr + size ≤ 2 ^ 64) :
    (slots g addr (wrap64 (addr + size))).Pairwise fun x y => g.slot x.1 < g.slot y.1 := by
  have hB : 0 < 2 ^ g.regionShift := Nat.two_pow_pos _
  have hle : g.slot addr + 1 ≤ g.slot (addr + size) := by
    rw [Geometry.slot_eq, Geometry.slot_eq, Nat.le_div_iff_mul_le hB, Nat.add_mul, Nat.one_mul]
    have hdown := Nat.div_mul_le_self addr (2 ^ g.regionShift)
    omega
  rw [slots_eq h hsize hend]
  refine List.pairwise_append.2 ⟨?_, ?_, ?_⟩
  · split <;> simp
  · split
    · refine List.pairwise_append.2 ⟨?_, ?_, ?_⟩
      · rw [List.pairwise_map]
        simpa only [g.slot_mul] using List.pairwise_lt_range'
      · split <;> simp
      · intro x hx y hy
        rcases List.mem_map.1 hx with ⟨n, hn, rfl⟩
        have hy' : y = (g.slot (addr + size) * 2 ^ g.regionShift, Phase.tail) := by
          split at hy <;> simp_all
        have hn' := List.mem_range'_1.1 hn
        rw [hy', g.slot_mul, g.slot_mul]
        omega
    · split <;> simp
  · intro x hx y hy
    have hx' : x = (addr, Phase.head) := by
      split at hx <;> simp_all
    rw [hx']
    change g.slot addr < g.slot y.1
    split at hy
    · rcases List.mem_append.1 hy with hy | hy
      · rcases List.mem_map.1 hy with ⟨n, hn, rfl⟩
        have hn' := List.mem_range'_1.1 hn
        rw [g.slot_mul]
        omega
      · have hy' : y = (g.slot (addr + size) * 2 ^ g.regionShift, Phase.tail) := by
          split at hy <;> simp_all
        rw [hy', g.slot_mul]
        omega
    · have hy' : y = ((g.slot addr + 1) * 2 ^ g.regionShift, Phase.tail) := by
        split at hy <;> simp_all
      rw [hy', g.slot_mul]
      omega

end Slots

end Structures
end Shambles
