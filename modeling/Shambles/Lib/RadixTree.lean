import Mathlib.Tactic

/-!
# RadixTree — reference-counted radix trees

A radix tree of depth `d` has `d` levels of inner nodes above one level of nodes with records.  A
node owns an array, allocated (zeroed) by the first registration that passes through it and freed
by the last one that leaves; its counter says how many there are.

* `Tree.visit` walks down a path, allocates on the way and edits the record at its end;
* `Tree.leave` walks down the same path, edits the record and frees on the way back; it is `none`
  where an unallocated array would be followed or a counter at zero decremented;
* `Tree.find` only reads, and stops at an unallocated array.

`Forest` has the same operations on an array of trees, the level above the top nodes.

`Counts t R` says that `R` lists the paths registered in `t`: every counter is the number of paths
through its node, and arrays are there exactly when that number is positive.  Under `Counts` a tree
is determined by `R` (up to order) and its records (`Counts.ext`).
-/

namespace Shambles
namespace RadixTree

universe u

variable {α β : Type u}

structure Node (β : Type u) where
  arr : Option (Nat → β)
  refcount : Nat

namespace Node

/-- A node nobody uses. -/
def empty : Node β :=
  ⟨none, 0⟩

/-- Allocate if needed, edit entry `i`, count one more user. -/
def visit (zero : β) (i : Nat) (f : β → β) (t : Node β) : Node β :=
  let a := t.arr.getD fun _ => zero
  ⟨some (Function.update a i (f (a i))), t.refcount + 1⟩

/-- Edit entry `i`, count one user less, free the array behind the last one. -/
def leave (i : Nat) (f : β → Option β) (t : Node β) : Option (Node β) :=
  match t.arr, t.refcount with
  | some a, n + 1 =>
      (f (a i)).map fun b => if n = 0 then empty else ⟨some (Function.update a i b), n⟩
  | _, _ => none

variable {t t' : Node β} {i : Nat} {f : β → Option β}

theorem leave_eq_some_iff :
    t.leave i f = some t' ↔ ∃ a n b, t.arr = some a ∧ t.refcount = n + 1 ∧ f (a i) = some b ∧
      t' = if n = 0 then empty else ⟨some (Function.update a i b), n⟩ := by
  rcases t with ⟨arr, count⟩
  cases arr with
  | none => simp [leave]
  | some a =>
      cases count with
      | zero => simp [leave]
      | succ n =>
          cases hb : f (a i) with
          | none => simp [leave, hb]
          | some b => simp [leave, hb, eq_comm]

theorem eq_of (hcount : t.refcount = t'.refcount)
    (hsome : t.arr.isSome = true ↔ t'.arr.isSome = true)
    (harr : ∀ a a', t.arr = some a → t'.arr = some a' → a = a') : t = t' := by
  rcases t with ⟨arr, count⟩
  rcases t' with ⟨arr', count'⟩
  cases arr with
  | none =>
      cases arr' with
      | none => simpa using hcount
      | some a' => simp at hsome
  | some a =>
      cases arr' with
      | none => simp at hsome
      | some a' => simpa [harr a a' rfl rfl] using hcount

end Node

@[reducible] def Tree (α : Type u) : Nat → Type u
  | 0 => Node α
  | d + 1 => Node (Tree α d)

/-- The indices from the top of a tree of depth `d` to a record. -/
@[reducible] def Path : Nat → Type
  | 0 => Nat
  | d + 1 => Nat × Path d

instance decidableEqPath : (d : Nat) → DecidableEq (Path d)
  | 0 => inferInstanceAs (DecidableEq Nat)
  | d + 1 =>
      let _ := decidableEqPath d
      inferInstanceAs (DecidableEq (Nat × Path d))

namespace Tree

def empty : (d : Nat) → Tree α d
  | 0 => Node.empty
  | _ + 1 => Node.empty

def visit (zero : α) (f : α → α) : (d : Nat) → Path d → Tree α d → Tree α d
  | 0, i, t => Node.visit zero i f t
  | d + 1, (i, p), t => Node.visit (empty d) i (visit zero f d p) t

def leave (f : α → α) : (d : Nat) → Path d → Tree α d → Option (Tree α d)
  | 0, i, t => Node.leave i (fun v => some (f v)) t
  | d + 1, (i, p), t => Node.leave i (leave f d p) t

def find : (d : Nat) → Path d → Tree α d → Option α
  | 0, i, t => Option.map (fun a => a i) (Node.arr t)
  | d + 1, (i, p), t => Option.bind (Node.arr t) fun a => find d p (a i)

/-- The record at a path, where unallocated memory counts as zeroed. -/
def look (zero : α) (d : Nat) (p : Path d) (t : Tree α d) : α :=
  (find d p t).getD zero

end Tree

/-! ## Registered paths -/

/-- The paths that enter child `i`, from there on. -/
def below {d : Nat} (i : Nat) (R : List (Nat × Path d)) : List (Path d) :=
  R.filterMap fun p => if p.1 = i then some p.2 else none

def Counts : (d : Nat) → Tree α d → List (Path d) → Prop
  | 0, t, R => Node.refcount t = R.length ∧ ((Node.arr t).isSome = true ↔ R ≠ [])
  | d + 1, t, R =>
      Node.refcount t = R.length ∧ ((Node.arr t).isSome = true ↔ R ≠ []) ∧
        ∀ a, Node.arr t = some a → ∀ i, Counts d (a i) (below i R)

section Below

variable {d : Nat} {i : Nat} {p q : Path d} {R : List (Nat × Path d)}

@[simp] theorem below_nil : below i ([] : List (Nat × Path d)) = [] := rfl

theorem below_cons (j : Nat) :
    below i ((j, p) :: R) = if j = i then p :: below i R else below i R := by
  by_cases hji : j = i
  · simp [below, hji]
  · simp [below, hji]

theorem mem_below : q ∈ below i R ↔ (i, q) ∈ R := by
  simp only [below, List.mem_filterMap]
  constructor
  · rintro ⟨⟨j, r⟩, hmem, hq⟩
    by_cases hji : j = i
    · obtain rfl : r = q := by simpa [hji] using hq
      rwa [← hji]
    · simp [hji] at hq
  · intro hmem
    exact ⟨(i, q), hmem, by simp⟩

theorem below_perm {R' : List (Nat × Path d)} (h : R.Perm R') : (below i R).Perm (below i R') :=
  h.filterMap _

end Below

namespace Counts

theorem empty : (d : Nat) → Counts d (Tree.empty d : Tree α d) []
  | 0 => ⟨rfl, by simp [Tree.empty, Node.empty]⟩
  | d + 1 => ⟨rfl, by simp [Tree.empty, Node.empty], fun a ha => by cases ha⟩

theorem perm {d : Nat} : ∀ {t : Tree α d} {R R' : List (Path d)}, Counts d t R → R.Perm R' →
    Counts d t R' := by
  induction d with
  | zero =>
      intro t R R' h hperm
      have hnil : R ≠ [] ↔ R' ≠ [] := by simp [← List.length_pos_iff, hperm.length_eq]
      exact ⟨h.1.trans hperm.length_eq, h.2.trans hnil⟩
  | succ d ih =>
      intro t R R' h hperm
      have hnil : R ≠ [] ↔ R' ≠ [] := by simp [← List.length_pos_iff, hperm.length_eq]
      refine ⟨h.1.trans hperm.length_eq, h.2.1.trans hnil, ?_⟩
      intro a ha i
      exact ih (h.2.2 a ha i) (below_perm hperm)

/-- Without registrations nothing is allocated. -/
theorem eq_empty {d : Nat} {t : Tree α d} (h : Counts d t []) : t = Tree.empty d := by
  cases d with
  | zero =>
      refine Node.eq_of h.1 (by simpa [Tree.empty, Node.empty] using h.2) ?_
      intro a a' _ ha'
      cases ha'
  | succ d =>
      refine Node.eq_of h.1 (by simpa [Tree.empty, Node.empty] using h.2.1) ?_
      intro a a' _ ha'
      cases ha'

/-- The children of a node, those still to be allocated included. -/
theorem child {d : Nat} {t : Tree α (d + 1)} {R : List (Path (d + 1))} (h : Counts (d + 1) t R)
    (i : Nat) : Counts d ((Node.arr t).getD (fun _ => Tree.empty d) i) (below i R) := by
  cases harr : Node.arr t with
  | some a => exact h.2.2 a harr i
  | none =>
      -- No array, hence no registration.
      have hnil : R = [] := by
        by_contra hne
        simpa [harr] using h.2.1.2 hne
      subst hnil
      exact empty d

theorem visit (zero : α) (f : α → α) {d : Nat} : ∀ {t : Tree α d} {R : List (Path d)},
    Counts d t R → ∀ p, Counts d (Tree.visit zero f d p t) (p :: R) := by
  induction d with
  | zero =>
      intro t R h p
      exact ⟨by simp [Tree.visit, Node.visit, h.1], by simp [Tree.visit, Node.visit]⟩
  | succ d ih =>
      rintro t R h ⟨i, p⟩
      refine ⟨by simp [Tree.visit, Node.visit, h.1], by simp [Tree.visit, Node.visit], ?_⟩
      intro a ha j
      obtain rfl := (Option.some.inj ha).symm
      rw [below_cons]
      by_cases hij : i = j
      · subst hij
        simpa using ih (h.child i) p
      · simpa [hij, Function.update_of_ne (Ne.symm hij)] using h.child j

/-- A registered path can be left, and its registration is gone. -/
theorem leave (f : α → α) {d : Nat} : ∀ {t : Tree α d} {p : Path d} {R : List (Path d)},
    Counts d t (p :: R) → ∃ t', Tree.leave f d p t = some t' ∧ Counts d t' R := by
  induction d with
  | zero =>
      intro t i R h
      rcases Option.isSome_iff_exists.1 (h.2.2 (by simp)) with ⟨a, ha⟩
      refine ⟨_, Node.leave_eq_some_iff.2 ⟨a, R.length, f (a i), ha, by simp [h.1], rfl, rfl⟩, ?_⟩
      by_cases hR : R = []
      · simp [hR, Counts, Node.empty]
      · simp [hR, Counts]
  | succ d ih =>
      rintro t ⟨i, p⟩ R h
      rcases Option.isSome_iff_exists.1 (h.2.1.2 (by simp)) with ⟨a, ha⟩
      -- The subtree on the path has one registration less, the others keep theirs.
      have hchild : Counts d (a i) (p :: below i R) := by
        simpa [below_cons] using h.2.2 a ha i
      rcases ih hchild with ⟨b, hb, hcounts⟩
      refine ⟨_, Node.leave_eq_some_iff.2 ⟨a, R.length, b, ha, by simp [h.1], hb, rfl⟩, ?_⟩
      by_cases hR : R = []
      · simp [hR, Counts, Node.empty]
      · have hlen : R.length ≠ 0 := by simpa using hR
        rw [if_neg hlen]
        refine ⟨rfl, by simp [hR], ?_⟩
        intro a' ha' j
        obtain rfl := (Option.some.inj ha').symm
        by_cases hij : i = j
        · subst hij
          simpa using hcounts
        · have hother := h.2.2 a ha j
          rw [below_cons, if_neg hij] at hother
          simpa [Function.update_of_ne (Ne.symm hij)] using hother

/-- Two trees with the same registrations and the same records are the same tree. -/
theorem ext (zero : α) {d : Nat} : ∀ {t t' : Tree α d} {R : List (Path d)},
    Counts d t R → Counts d t' R → (∀ q, Tree.look zero d q t = Tree.look zero d q t') →
      t = t' := by
  induction d with
  | zero =>
      intro t t' R h h' hlook
      refine Node.eq_of (h.1.trans h'.1.symm) (h.2.trans h'.2.symm) ?_
      intro a a' ha ha'
      funext i
      simpa [Tree.look, Tree.find, ha, ha'] using hlook i
  | succ d ih =>
      intro t t' R h h' hlook
      refine Node.eq_of (h.1.trans h'.1.symm) (h.2.1.trans h'.2.1.symm) ?_
      intro a a' ha ha'
      funext i
      refine ih (h.2.2 a ha i) (h'.2.2 a' ha' i) ?_
      intro q
      simpa [Tree.look, Tree.find, ha, ha'] using hlook (i, q)

end Counts

/-! ## Records -/

namespace Tree

theorem look_empty (zero : α) {d : Nat} (q : Path d) : look zero d q (empty d) = zero := by
  cases d with
  | zero => rfl
  | succ d => rfl

theorem look_child (zero : α) {d : Nat} (i : Nat) (q : Path d) (t : Tree α (d + 1)) :
    look zero (d + 1) (i, q) t =
      look zero d q ((Node.arr t).getD (fun _ => empty d) i) := by
  cases harr : Node.arr t with
  | none =>
      rw [Option.getD_none, look_empty]
      simp [look, find, harr]
  | some a => simp [look, find, harr]

theorem look_visit (zero : α) (f : α → α) {d : Nat} : ∀ (p q : Path d) (t : Tree α d),
    look zero d q (visit zero f d p t) =
      if q = p then f (look zero d p t) else look zero d q t := by
  induction d with
  | zero =>
      intro i j t
      by_cases hji : j = i
      · cases harr : Node.arr t with
        | none => simp [look, find, visit, Node.visit, harr, hji]
        | some a => simp [look, find, visit, Node.visit, harr, hji]
      · cases harr : Node.arr t with
        | none => simp [look, find, visit, Node.visit, harr, hji]
        | some a => simp [look, find, visit, Node.visit, harr, hji]
  | succ d ih =>
      rintro ⟨i, p⟩ ⟨j, q⟩ t
      rw [look_child, look_child, look_child]
      by_cases hji : j = i
      · subst hji
        simpa [visit, Node.visit] using ih p q _
      · simp [visit, Node.visit, hji]

/-- After leaving, a record has been edited, is as before, or has been freed. -/
theorem look_leave_or (zero : α) (f : α → α) {d : Nat} : ∀ {p : Path d} {t t' : Tree α d},
    leave f d p t = some t' → ∀ q, look zero d q t' = zero ∨
      look zero d q t' = if q = p then f (look zero d p t) else look zero d q t := by
  induction d with
  | zero =>
      intro i t t' ht' j
      rcases Node.leave_eq_some_iff.1 ht' with ⟨a, n, b, ha, hn, hb, rfl⟩
      obtain rfl : f (a i) = b := Option.some.inj hb
      by_cases hn0 : n = 0
      · left
        rw [if_pos hn0]
        rfl
      · right
        rw [if_neg hn0]
        by_cases hji : j = i
        · simp [look, find, ha, hji]
        · simp [look, find, ha, hji]
  | succ d ih =>
      rintro ⟨i, p⟩ t t' ht' ⟨j, q⟩
      rcases Node.leave_eq_some_iff.1 ht' with ⟨a, n, b, ha, hn, hb, rfl⟩
      by_cases hn0 : n = 0
      · left
        rw [if_pos hn0]
        rfl
      · rw [if_neg hn0, look_child, look_child, look_child, ha]
        by_cases hji : j = i
        · subst hji
          simpa using ih hb q
        · right
          simp [hji]

theorem pos_of_length {γ : Type*} {R : List γ} {p : γ} {n : Nat} (hR : R ≠ [])
    (hn : (p :: R).length = n + 1) : n ≠ 0 := by
  rintro rfl
  exact hR (List.length_eq_zero_iff.1 (Nat.succ.inj hn))

/-- Behind the last registration nothing is left. -/
theorem look_leave_last (zero : α) (f : α → α) {d : Nat} {p : Path d} {t t' : Tree α d}
    (h : Counts d t [p]) (hzero : ∀ q, q ∉ [p] → look zero d q t = zero)
    (hlast : f (look zero d p t) = zero) (ht' : leave f d p t = some t') (q : Path d) :
    look zero d q t' = if q = p then f (look zero d p t) else look zero d q t := by
  rcases h.leave f with ⟨t'', ht'', hcounts⟩
  obtain rfl : t'' = t' := Option.some.inj (ht''.symm.trans ht')
  rw [hcounts.eq_empty, look_empty]
  by_cases hqp : q = p
  · rw [if_pos hqp, hlast]
  · rw [if_neg hqp, hzero q (by simpa using hqp)]

/-- Leaving may free the array of other records; under the counts these are zeroed, so reading
them does not tell the difference. -/
theorem look_leave (zero : α) (f : α → α) {d : Nat} :
    ∀ {p : Path d} {t t' : Tree α d} {R : List (Path d)}, Counts d t (p :: R) →
      (∀ q, q ∉ p :: R → look zero d q t = zero) → (p ∉ R → f (look zero d p t) = zero) →
      leave f d p t = some t' → ∀ q, look zero d q t' =
        if q = p then f (look zero d p t) else look zero d q t := by
  induction d with
  | zero =>
      intro i t t' R h hzero hlast ht' j
      by_cases hR : R = []
      · subst hR
        exact look_leave_last zero f h hzero (hlast (by simp)) ht' j
      rcases Node.leave_eq_some_iff.1 ht' with ⟨a, n, b, ha, hn, hb, rfl⟩
      obtain rfl : f (a i) = b := Option.some.inj hb
      have hn0 : n ≠ 0 := pos_of_length hR (h.1.symm.trans hn)
      rw [if_neg hn0]
      by_cases hji : j = i
      · simp [look, find, ha, hji]
      · simp [look, find, ha, hji]
  | succ d ih =>
      rintro ⟨i, p⟩ t t' R h hzero hlast ht' ⟨j, q⟩
      -- With the last registration the whole array is freed; otherwise the count stays positive
      -- and only the subtree at `i` changes.
      by_cases hR : R = []
      · subst hR
        exact look_leave_last zero f h hzero (hlast (by simp)) ht' (j, q)
      rcases Node.leave_eq_some_iff.1 ht' with ⟨a, n, b, ha, hn, hb, rfl⟩
      have hn0 : n ≠ 0 := pos_of_length hR (h.1.symm.trans hn)
      have hlook : ∀ k r, look zero (d + 1) (k, r) t = look zero d r (a k) := by
        intro k r
        simp [look, find, ha]
      have hread : look zero (d + 1) (j, q)
          (⟨some (Function.update a i b), n⟩ : Node (Tree α d)) =
            look zero d q (Function.update a i b j) := rfl
      rw [if_neg hn0, hlook, hlook, hread]
      by_cases hji : j = i
      · subst hji
        have hchild : Counts d (a j) (p :: below j R) := by
          simpa [below_cons] using h.2.2 a ha j
        have hbelow := ih hchild
          (fun r hr => by
            rw [← hlook]
            refine hzero (j, r) ?_
            simpa [mem_below] using hr)
          (fun hp => by
            have hz := hlast (fun hmem => hp (mem_below.2 hmem))
            rwa [hlook] at hz) hb q
        simpa using hbelow
      · simp [hji]

end Tree

/-! ## Arrays of trees -/

/-- An array of trees; unlike a node it is always there and counts nothing. -/
@[reducible] def Forest (α : Type u) (d : Nat) : Type u :=
  Nat → Tree α d

namespace Forest

variable {d : Nat} {F F' : Forest α d} {p q : Path (d + 1)} {R R' : List (Path (d + 1))}

def empty (d : Nat) : Forest α d :=
  fun _ => Tree.empty d

def visit (zero : α) (f : α → α) (p : Path (d + 1)) (F : Forest α d) : Forest α d :=
  Function.update F p.1 (Tree.visit zero f d p.2 (F p.1))

def leave (f : α → α) (p : Path (d + 1)) (F : Forest α d) : Option (Forest α d) :=
  (Tree.leave f d p.2 (F p.1)).map fun t => Function.update F p.1 t

def find (p : Path (d + 1)) (F : Forest α d) : Option α :=
  Tree.find d p.2 (F p.1)

def look (zero : α) (p : Path (d + 1)) (F : Forest α d) : α :=
  Tree.look zero d p.2 (F p.1)

/-- `R` lists the paths registered in the trees of `F`. -/
def Counted (F : Forest α d) (R : List (Path (d + 1))) : Prop :=
  ∀ i, Counts d (F i) (below i R)

theorem counted_empty (d : Nat) : Counted (empty d : Forest α d) [] :=
  fun _ => Counts.empty d

theorem Counted.perm (h : Counted F R) (hperm : R.Perm R') : Counted F R' :=
  fun i => (h i).perm (below_perm hperm)

theorem Counted.visit (zero : α) (f : α → α) (h : Counted F R) (p : Path (d + 1)) :
    Counted (visit zero f p F) (p :: R) := by
  rcases p with ⟨i, p⟩
  intro j
  rw [below_cons]
  by_cases hij : i = j
  · subst hij
    simpa [Forest.visit] using (h i).visit zero f p
  · simpa [Forest.visit, hij, Function.update_of_ne (Ne.symm hij)] using h j

theorem Counted.leave (f : α → α) (h : Counted F (p :: R)) :
    ∃ F', Forest.leave f p F = some F' ∧ Counted F' R := by
  rcases p with ⟨i, p⟩
  have hchild : Counts d (F i) (p :: below i R) := by
    simpa [below_cons] using h i
  rcases hchild.leave f with ⟨t, ht, hcounts⟩
  refine ⟨Function.update F i t, by simp [Forest.leave, ht], ?_⟩
  intro j
  by_cases hij : i = j
  · subst hij
    simpa using hcounts
  · have hother := h j
    rw [below_cons, if_neg hij] at hother
    simpa [Function.update_of_ne (Ne.symm hij)] using hother

theorem Counted.ext (zero : α) (h : Counted F R) (h' : Counted F' R)
    (hlook : ∀ q, look zero q F = look zero q F') : F = F' := by
  funext i
  exact Counts.ext zero (h i) (h' i) fun q => hlook (i, q)

theorem look_empty (zero : α) (q : Path (d + 1)) : look zero q (empty d) = zero :=
  Tree.look_empty zero q.2

theorem look_visit (zero : α) (f : α → α) (p q : Path (d + 1)) (F : Forest α d) :
    look zero q (visit zero f p F) = if q = p then f (look zero p F) else look zero q F := by
  rcases p with ⟨i, p⟩
  rcases q with ⟨j, q⟩
  by_cases hji : j = i
  · subst hji
    simpa [look, visit] using Tree.look_visit zero f p q (F j)
  · simp [look, visit, hji]

theorem look_leave_or (zero : α) (f : α → α) (h : leave f p F = some F') (q : Path (d + 1)) :
    look zero q F' = zero ∨
      look zero q F' = if q = p then f (look zero p F) else look zero q F := by
  rcases p with ⟨i, p⟩
  rcases q with ⟨j, q⟩
  rcases Option.map_eq_some_iff.1 h with ⟨t, ht, rfl⟩
  by_cases hji : j = i
  · subst hji
    simpa [look] using Tree.look_leave_or zero f ht q
  · right
    simp [look, hji]

theorem look_leave (zero : α) (f : α → α) (hcounted : Counted F (p :: R))
    (hzero : ∀ q, q ∉ p :: R → look zero q F = zero) (hlast : p ∉ R → f (look zero p F) = zero)
    (h : leave f p F = some F') (q : Path (d + 1)) :
    look zero q F' = if q = p then f (look zero p F) else look zero q F := by
  rcases p with ⟨i, p⟩
  rcases q with ⟨j, q⟩
  rcases Option.map_eq_some_iff.1 h with ⟨t, ht, rfl⟩
  by_cases hji : j = i
  · subst hji
    have hchild : Counts d (F j) (p :: below j R) := by
      simpa [below_cons] using hcounted j
    have hrecord := Tree.look_leave zero f hchild
      (fun r hr => hzero (j, r) (by simpa [mem_below] using hr))
      (fun hp => hlast fun hmem => hp (mem_below.2 hmem)) ht q
    simpa [look] using hrecord
  · simp [look, hji]

end Forest

end RadixTree
end Shambles
