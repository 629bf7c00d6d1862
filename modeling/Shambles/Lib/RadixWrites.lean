import Shambles.Lib.RadixTree

/-!
# RadixWrites — a radix tree under single writes

`Tree.visit` and `Tree.leave` are loops.  Whoever reads the tree without waiting for them sees it
between two of their writes: with an array that is there and not yet counted, or a record with some
of its fields assigned.

* `Write` is one write on a path: to the pointer or the counter of a node, or to the record.
* `visitWrites` and `leaveWrites` are the writes of the two loops, in their order; made one after the
  other they do what the loop does (`foldlM_visitWrites`, `foldlM_leaveWrites`).
* `Tree.reach` says whether a reader can follow a path down to a level.

The writes of `visit` free nothing and those of `leave` allocate nothing.  So what can be read of a
record before a `visit` can be read during it, and what can be read after a `leave` could be read
during it, unless the record itself is written (`find_write`).
-/

namespace Shambles
namespace RadixTree

universe u

variable {α β γ : Type u}

/-! ## Writes -/

/-- One write to the pointer or the counter of a node. -/
inductive NodeWrite
  /-- Allocate the array if there is none. -/
  | alloc
  | count
  | uncount
  /-- Free the array if nobody is left. -/
  | free
  deriving DecidableEq, Repr

/-- Allocating and counting go one way, the other two the other way. -/
def NodeWrite.grows : NodeWrite → Bool
  | .alloc => true
  | .count => true
  | .uncount => false
  | .free => false

namespace Node

def write (zero : β) (t : Node β) : NodeWrite → Option (Node β)
  | .alloc => some ⟨some (t.arr.getD fun _ => zero), t.refcount⟩
  | .count => some ⟨t.arr, t.refcount + 1⟩
  | .uncount =>
      match t.refcount with
      | 0 => none
      | n + 1 => some ⟨t.arr, n⟩
  | .free => some (if t.refcount = 0 then empty else t)

/-- A write behind entry `i`. -/
def edit (i : Nat) (f : β → Option β) (t : Node β) : Option (Node β) :=
  t.arr.bind fun a => (f (a i)).map fun b => ⟨some (Function.update a i b), t.refcount⟩

theorem edit_eq_some_iff {i : Nat} {f : β → Option β} {t t' : Node β} :
    t.edit i f = some t' ↔ ∃ a b, t.arr = some a ∧ f (a i) = some b ∧
      t' = ⟨some (Function.update a i b), t.refcount⟩ := by
  simp only [edit, Option.bind_eq_some_iff, Option.map_eq_some_iff]
  constructor
  · rintro ⟨a, ha, b, hb, rfl⟩
    exact ⟨a, b, ha, hb, rfl⟩
  · rintro ⟨a, b, ha, hb, rfl⟩
    exact ⟨a, ha, b, hb, rfl⟩

end Node

/-- One write on a path: to its node at some level, the top one being 0, or to its record. -/
inductive Write (α : Type u)
  | node (level : Nat) (w : NodeWrite)
  | edit (f : α → α)

namespace Write

/-- The same write, seen from one level further up. -/
def below : Write α → Write α
  | .node level w => .node (level + 1) w
  | .edit f => .edit f

/-- The write frees nothing. -/
def grows : Write α → Bool
  | .node _ w => w.grows
  | .edit _ => true

/-- The write allocates nothing. -/
def shrinks : Write α → Bool
  | .node _ w => !w.grows
  | .edit _ => true

@[simp] theorem grows_below (w : Write α) : w.below.grows = w.grows := by
  cases w <;> rfl

@[simp] theorem shrinks_below (w : Write α) : w.below.shrinks = w.shrinks := by
  cases w <;> rfl

end Write

def Tree.write (zero : α) : (d : Nat) → Path d → Tree α d → Write α → Option (Tree α d)
  | 0, _, t, .node 0 w => Node.write zero t w
  | 0, _, _, .node (_ + 1) _ => none
  | 0, i, t, .edit f => Node.edit i (fun v => some (f v)) t
  | d + 1, _, t, .node 0 w => Node.write (Tree.empty d) t w
  | d + 1, (i, p), t, .node (level + 1) w =>
      Node.edit i (fun child => Tree.write zero d p child (.node level w)) t
  | d + 1, (i, p), t, .edit f => Node.edit i (fun child => Tree.write zero d p child (.edit f)) t

def Forest.write {d : Nat} (zero : α) (p : Path (d + 1)) (F : Forest α d) (w : Write α) :
    Option (Forest α d) :=
  (Tree.write zero d p.2 (F p.1) w).map fun t => Function.update F p.1 t

/-! ## The writes of the two loops -/

/-- The assignments `fs` one after the other. -/
def assignAll (fs : List (α → α)) (v : α) : α :=
  fs.foldl (fun v f => f v) v

/-- Allocate and count on the way down, then assign. -/
def visitWrites (fs : List (α → α)) : Nat → List (Write α)
  | 0 => .node 0 .alloc :: .node 0 .count :: fs.map .edit
  | d + 1 => .node 0 .alloc :: .node 0 .count :: (visitWrites fs d).map .below

/-- Assign, then count down and free on the way back. -/
def leaveWrites (fs : List (α → α)) : Nat → List (Write α)
  | 0 => fs.map .edit ++ [.node 0 .uncount, .node 0 .free]
  | d + 1 => (leaveWrites fs d).map .below ++ [.node 0 .uncount, .node 0 .free]

/-- `leave` begins with its first assignment. -/
theorem leaveWrites_cons (f : α → α) (fs : List (α → α)) (d : Nat) :
    ∃ rest, leaveWrites (f :: fs) d = .edit f :: rest := by
  induction d with
  | zero => exact ⟨_, rfl⟩
  | succ d ih =>
      rcases ih with ⟨rest, hrest⟩
      exact ⟨_, by rw [leaveWrites, hrest, List.map_cons, List.cons_append]; rfl⟩

section Loops

variable {zero : α} {d : Nat}

theorem Tree.write_below (i : Nat) (p : Path d) (t : Tree α (d + 1)) (w : Write α) :
    Tree.write zero (d + 1) (i, p) t w.below =
      Node.edit i (fun child => Tree.write zero d p child w) t := by
  cases w with
  | node level w => rfl
  | edit f => rfl

/-- Writes below an array happen in one of its entries. -/
theorem foldlM_below (i : Nat) (p : Path d) (ws : List (Write α)) :
    ∀ (a : Nat → Tree α d) (n : Nat),
      (ws.map Write.below).foldlM (Tree.write zero (d + 1) (i, p)) ⟨some a, n⟩ =
        (ws.foldlM (Tree.write zero d p) (a i)).map fun b => ⟨some (Function.update a i b), n⟩ := by
  induction ws with
  | nil =>
      intro a n
      simp
  | cons w ws ih =>
      intro a n
      rw [List.map_cons, List.foldlM_cons, Tree.write_below, List.foldlM_cons]
      cases hw : Tree.write zero d p (a i) w with
      | none => simp [Node.edit, hw]
      | some b =>
          simp only [Node.edit, hw, Option.bind_some, Option.map_some, Option.bind_eq_bind]
          rw [ih (Function.update a i b) n]
          simp

theorem foldlM_edits (i : Nat) (fs : List (α → α)) : ∀ (a : Nat → α) (n : Nat),
    (fs.map Write.edit).foldlM (Tree.write zero 0 i) ⟨some a, n⟩ =
      some (⟨some (Function.update a i (assignAll fs (a i))), n⟩ : Node α) := by
  induction fs with
  | nil =>
      intro a n
      simp [assignAll]
  | cons f fs ih =>
      intro a n
      rw [List.map_cons, List.foldlM_cons]
      simp only [Tree.write, Node.edit, Option.bind_some, Option.map_some, Option.bind_eq_bind]
      rw [ih (Function.update a i (f (a i))) n]
      simp [assignAll]

theorem Tree.foldlM_visitWrites (fs : List (α → α)) : ∀ (p : Path d) (t : Tree α d),
    (visitWrites fs d).foldlM (Tree.write zero d p) t =
      some (Tree.visit zero (assignAll fs) d p t) := by
  induction d with
  | zero =>
      intro i t
      simp only [visitWrites, List.foldlM_cons, Tree.write, Node.write, Option.bind_eq_bind,
        Option.bind_some]
      rw [foldlM_edits]
      rfl
  | succ d ih =>
      rintro ⟨i, p⟩ t
      simp only [visitWrites, List.foldlM_cons, Tree.write, Node.write, Option.bind_eq_bind,
        Option.bind_some]
      rw [foldlM_below, ih, Option.map_some]
      rfl

theorem Tree.foldlM_leaveWrites (fs : List (α → α)) : ∀ {p : Path d} {t t' : Tree α d},
    Tree.leave (assignAll fs) d p t = some t' →
      (leaveWrites fs d).foldlM (Tree.write zero d p) t = some t' := by
  induction d with
  | zero =>
      intro i t t' h
      rcases Node.leave_eq_some_iff.1 h with ⟨a, n, b, ha, hn, hb, rfl⟩
      obtain rfl : assignAll fs (a i) = b := Option.some.inj hb
      obtain rfl : t = ⟨some a, n + 1⟩ := by rw [← ha, ← hn]
      rw [leaveWrites, List.foldlM_append, foldlM_edits]
      rfl
  | succ d ih =>
      rintro ⟨i, p⟩ t t' h
      rcases Node.leave_eq_some_iff.1 h with ⟨a, n, b, ha, hn, hb, rfl⟩
      obtain rfl : t = ⟨some a, n + 1⟩ := by rw [← ha, ← hn]
      rw [leaveWrites, List.foldlM_append, foldlM_below, ih hb]
      rfl

theorem Forest.foldlM_write (p : Path (d + 1)) (ws : List (Write α)) : ∀ F : Forest α d,
    ws.foldlM (Forest.write zero p) F =
      (ws.foldlM (Tree.write zero d p.2) (F p.1)).map fun t => Function.update F p.1 t := by
  induction ws with
  | nil =>
      intro F
      simp
  | cons w ws ih =>
      intro F
      rw [List.foldlM_cons, List.foldlM_cons]
      cases hw : Tree.write zero d p.2 (F p.1) w with
      | none => simp [Forest.write, hw]
      | some t =>
          simp only [Forest.write, hw, Option.map_some, Option.bind_eq_bind, Option.bind_some]
          rw [ih]
          simp

theorem Forest.foldlM_visitWrites (fs : List (α → α)) (p : Path (d + 1)) (F : Forest α d) :
    (visitWrites fs d).foldlM (Forest.write zero p) F =
      some (Forest.visit zero (assignAll fs) p F) := by
  rw [Forest.foldlM_write, Tree.foldlM_visitWrites]
  rfl

theorem Forest.foldlM_leaveWrites (fs : List (α → α)) {p : Path (d + 1)} {F F' : Forest α d}
    (h : Forest.leave (assignAll fs) p F = some F') :
    (leaveWrites fs d).foldlM (Forest.write zero p) F = some F' := by
  rcases Option.map_eq_some_iff.1 h with ⟨t, ht, rfl⟩
  rw [Forest.foldlM_write, Tree.foldlM_leaveWrites fs ht]
  rfl

end Loops

section Kinds

variable {fs : List (α → α)} {w : Write α}

theorem grows_of_mem {d : Nat} : w ∈ visitWrites fs d → w.grows = true := by
  induction d generalizing w with
  | zero =>
      intro h
      simp only [visitWrites, List.mem_cons, List.mem_map] at h
      rcases h with rfl | rfl | ⟨f, -, rfl⟩ <;> rfl
  | succ d ih =>
      intro h
      simp only [visitWrites, List.mem_cons, List.mem_map] at h
      rcases h with rfl | rfl | ⟨w, hw, rfl⟩
      · rfl
      · rfl
      · rw [Write.grows_below, ih hw]

theorem shrinks_of_mem {d : Nat} : w ∈ leaveWrites fs d → w.shrinks = true := by
  induction d generalizing w with
  | zero =>
      intro h
      simp only [leaveWrites, List.mem_append, List.mem_cons, List.mem_map, List.not_mem_nil,
        or_false] at h
      rcases h with ⟨f, -, rfl⟩ | rfl | rfl <;> rfl
  | succ d ih =>
      intro h
      simp only [leaveWrites, List.mem_append, List.mem_cons, List.mem_map, List.not_mem_nil,
        or_false] at h
      rcases h with ⟨w, hw, rfl⟩ | rfl | rfl
      · rw [Write.shrinks_below, ih hw]
      · rfl
      · rfl

theorem mem_of_edit_visit {d : Nat} {f : α → α} (h : .edit f ∈ visitWrites fs d) : f ∈ fs := by
  induction d with
  | zero => simpa [visitWrites] using h
  | succ d ih =>
      simp only [visitWrites, List.mem_cons, List.mem_map, reduceCtorEq, false_or] at h
      rcases h with ⟨w, hw, hwf⟩
      cases w with
      | node level w => cases hwf
      | edit f' =>
          obtain rfl : f' = f := by simpa [Write.below] using hwf
          exact ih hw

theorem mem_of_edit_leave {d : Nat} {f : α → α} (h : .edit f ∈ leaveWrites fs d) : f ∈ fs := by
  induction d with
  | zero => simpa [leaveWrites] using h
  | succ d ih =>
      simp only [leaveWrites, List.mem_append, List.mem_cons, List.mem_map, reduceCtorEq,
        List.not_mem_nil, or_false] at h
      rcases h with ⟨w, hw, hwf⟩
      cases w with
      | node level w => cases hwf
      | edit f' =>
          obtain rfl : f' = f := by simpa [Write.below] using hwf
          exact ih hw

end Kinds

/-! ## Reading between the writes -/

/-- Can the array of the node at this level of the path be followed? -/
def Tree.reach : (d level : Nat) → Path d → Tree α d → Bool
  | 0, 0, _, t => (Node.arr t).isSome
  | 0, _ + 1, _, _ => false
  | _ + 1, 0, _, t => (Node.arr t).isSome
  | d + 1, level + 1, (i, p), t => (Node.arr t).any fun a => reach d level p (a i)

/-- With the last array comes the record. -/
theorem Tree.reach_last {d : Nat} : ∀ (p : Path d) (t : Tree α d),
    Tree.reach d d p t = (Tree.find d p t).isSome := by
  induction d with
  | zero =>
      intro i t
      simp [Tree.reach, Tree.find]
  | succ d ih =>
      rintro ⟨i, p⟩ t
      cases harr : Node.arr t with
      | none => simp [Tree.reach, Tree.find, harr]
      | some a => simp [Tree.reach, Tree.find, harr, ih]

/-- With the record come all arrays on the way to it. -/
theorem Tree.reach_of_find {d : Nat} {v : α} : ∀ {p : Path d} {t : Tree α d} {level : Nat},
    Tree.find d p t = some v → level ≤ d → Tree.reach d level p t = true := by
  induction d with
  | zero =>
      intro i t level h hle
      obtain rfl : level = 0 := by omega
      rw [Tree.reach_last, h]
      rfl
  | succ d ih =>
      rintro ⟨i, p⟩ t level h hle
      rcases Option.bind_eq_some_iff.1 h with ⟨a, ha, hchild⟩
      cases level with
      | zero => simp [Tree.reach, ha]
      | succ level => simp [Tree.reach, ha, ih hchild (Nat.le_of_succ_le_succ hle)]

/-- A write on `p` leaves what `π` shows of the record at `q`. -/
def Write.Spares {ι : Type} (π : α → γ) (p q : ι) (w : Write α) : Prop :=
  ∀ f, w = .edit f → p = q → ∀ v, π (f v) = π v

section Find

variable {zero : α} {π : α → γ} {c : γ}

/-- What is read before a write that frees nothing is read after it too, and what is read after a write
that allocates nothing is read before it. -/
def Write.Keeps (w : Write α) (c : γ) (before after : Option γ) : Prop :=
  (w.grows = true → before = some c → after = some c) ∧
    (w.shrinks = true → after = some c → before = some c)

theorem Write.Keeps.refl (w : Write α) (c : γ) (o : Option γ) : w.Keeps c o o :=
  ⟨fun _ hread => hread, fun _ hread => hread⟩

/-- A write to a node, and what is read behind its array. -/
theorem Node.bind_write {t t' : Node β} {zero : β} {w : NodeWrite} {read : (Nat → β) → Option γ}
    (h : t.write zero w = some t') (level : Nat) :
    (Write.node (α := α) level w).Keeps c (t.arr.bind read) (t'.arr.bind read) := by
  rcases t with ⟨arr, n⟩
  cases w with
  | alloc =>
      obtain rfl := Option.some.inj h
      refine ⟨?_, fun hshrinks => nomatch hshrinks⟩
      intro _ hread
      rcases Option.bind_eq_some_iff.1 hread with ⟨a, rfl, ha⟩
      exact ha
  | count =>
      obtain rfl := Option.some.inj h
      exact .refl _ c _
  | uncount =>
      cases n with
      | zero => cases h
      | succ n =>
          obtain rfl := Option.some.inj h
          exact .refl _ c _
  | free =>
      obtain rfl := Option.some.inj h
      refine ⟨fun hgrows => (nomatch hgrows), ?_⟩
      intro _ hread
      by_cases hn : n = 0
      · simp [hn, Node.empty] at hread
      · simpa [hn] using hread

/-- What is read behind entry `j` of a node before and after a write behind entry `i`. -/
theorem Node.bind_edit {t t' : Node β} {i j : Nat} {f : β → Option β} {r : β → Option γ}
    {R : Option γ → Option γ → Prop} (hrefl : ∀ o, R o o) (h : t.edit i f = some t')
    (hentry : j = i → ∀ b b', f b = some b' → R (r b) (r b')) :
    R (t.arr.bind fun a => r (a j)) (t'.arr.bind fun a => r (a j)) := by
  rcases Node.edit_eq_some_iff.1 h with ⟨a, b, ha, hb, rfl⟩
  rw [ha]
  by_cases hji : j = i
  · subst hji
    simpa using hentry rfl _ _ hb
  · simpa [Function.update_of_ne hji] using hrefl (r (a j))

theorem Tree.map_find_zero (i : Nat) (t : Tree α 0) :
    (Tree.find 0 i t).map π = (Node.arr t).bind fun a => some (π (a i)) := by
  cases harr : Node.arr t with
  | none => simp [Tree.find, harr]
  | some a => simp [Tree.find, harr]

theorem Tree.map_find_succ {d : Nat} (i : Nat) (p : Path d) (t : Tree α (d + 1)) :
    (Tree.find (d + 1) (i, p) t).map π =
      (Node.arr t).bind fun a => (Tree.find d p (a i)).map π := by
  cases harr : Node.arr t with
  | none => simp [Tree.find, harr]
  | some a => simp [Tree.find, harr]

theorem Tree.find_write {d : Nat} : ∀ {p q : Path d} {t t' : Tree α d} {w : Write α},
    Tree.write zero d p t w = some t' → w.Spares π p q →
      w.Keeps c ((Tree.find d q t).map π) ((Tree.find d q t').map π) := by
  induction d with
  | zero =>
      intro i j t t' w h hspares
      rw [Tree.map_find_zero, Tree.map_find_zero]
      cases w with
      | node level w =>
          cases level with
          | zero => exact Node.bind_write h 0
          | succ level => cases h
      | edit f =>
          refine Node.bind_edit (r := fun v => some (π v)) (Write.Keeps.refl _ c) h ?_
          rintro hji b b' hb
          obtain rfl := Option.some.inj hb
          rw [hspares f rfl hji.symm b]
          exact .refl _ c _
  | succ d ih =>
      rintro ⟨i, p⟩ ⟨j, q⟩ t t' w h hspares
      rw [Tree.map_find_succ, Tree.map_find_succ]
      cases w with
      | node level w =>
          cases level with
          | zero => exact Node.bind_write h 0
          | succ level =>
              refine Node.bind_edit (r := fun b => (Tree.find d q b).map π)
                (Write.Keeps.refl _ c) h ?_
              intro _ b b' hb
              have hchild := ih (q := q) hb fun f hf => nomatch hf
              exact hchild
      | edit f =>
          refine Node.bind_edit (r := fun b => (Tree.find d q b).map π) (Write.Keeps.refl _ c) h ?_
          rintro rfl b b' hb
          refine ih hb ?_
          intro f' hf' hpq
          exact hspares f' hf' (by rw [hpq])

/-- A record that is there can be assigned to. -/
theorem Tree.find_edit {d : Nat} (f : α → α) {v : α} : ∀ {p : Path d} {t : Tree α d},
    Tree.find d p t = some v →
      ∃ t', Tree.write zero d p t (.edit f) = some t' ∧ Tree.find d p t' = some (f v) := by
  induction d with
  | zero =>
      intro i t h
      rcases Option.map_eq_some_iff.1 h with ⟨a, ha, rfl⟩
      refine ⟨_, Node.edit_eq_some_iff.2 ⟨a, f (a i), ha, rfl, rfl⟩, ?_⟩
      simp [Tree.find]
  | succ d ih =>
      rintro ⟨i, p⟩ t h
      rcases Option.bind_eq_some_iff.1 h with ⟨a, ha, hchild⟩
      rcases ih hchild with ⟨b, hb, hfind⟩
      refine ⟨_, Node.edit_eq_some_iff.2 ⟨a, b, ha, hb, rfl⟩, ?_⟩
      simp [Tree.find, hfind]

end Find

namespace Forest

variable {zero : α} {π : α → γ} {c : γ} {d : Nat} {p q : Path (d + 1)} {F F' : Forest α d}
  {w : Write α}

theorem find_write (h : Forest.write zero p F w = some F') (hspares : w.Spares π p q) :
    w.Keeps c ((Forest.find q F).map π) ((Forest.find q F').map π) := by
  rcases p with ⟨i, p⟩
  rcases q with ⟨j, q⟩
  rcases Option.map_eq_some_iff.1 h with ⟨t, ht, rfl⟩
  by_cases hji : j = i
  · subst hji
    simp only [Forest.find, Function.update_self]
    refine Tree.find_write ht fun f hf hpq => hspares f hf ?_
    exact congrArg (Prod.mk j) hpq
  · simp only [Forest.find, Function.update_of_ne hji]
    exact .refl w c _

theorem find_edit (f : α → α) {v : α} (h : Forest.find p F = some v) :
    ∃ F', Forest.write zero p F (.edit f) = some F' ∧ Forest.find p F' = some (f v) := by
  rcases Tree.find_edit f h with ⟨t, ht, hfind⟩
  refine ⟨Function.update F p.1 t, ?_, ?_⟩
  · rw [Forest.write, ht, Option.map_some]
  · simpa [Forest.find] using hfind

end Forest

end RadixTree
end Shambles
