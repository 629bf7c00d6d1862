import Shambles.Lib.RadixWrites
import Shambles.Structures.Completeness

/-!
# Stores — the region map under single loads and stores

`getRegion` takes no lock.  A thread in it may load a pointer before, and a field behind, a store that
another thread makes in `addRegion` or `deleteRegion`.  Here the two functions are the sequences of
their stores, and `getRegion` is a sequence of loads; loads and stores are atomic, in program order,
and a field that is tested and then used is loaded once.

Most of what a lookup loads may change under it.  Not so for the start of a region that has been
entered and starts inside a slot: no other region writes the high half of the record of that slot, and
the arrays on the way to it are not freed before the region is deleted.  So whatever regions are added
and deleted between its loads, the lookup ends at that region (`load_of_anchored`).  For other
addresses a lookup can end at a region that does not have them: `recursiveDelete` clears `highAddr`
before `highReg`, and between the two the region seems to begin at NULL
(`lookup_finds_deleted_region`).
-/

namespace Shambles
namespace Structures

open RadixTree AssocList

/-! ## Stores -/

/-- One store to the memory of the map, on the path to a record. -/
structure Store (g : Geometry) where
  path : Path (g.nonLeafNodesDepth + 1)
  write : Write RegionNode

variable {g : Geometry}

def Store.apply (root : Root g) (st : Store g) : Option (Root g) :=
  Forest.write RegionNode.zero st.path root st.write

/-- The assignments to `rn`, in their order: of a region when it registers, of NULL when it is
deleted. -/
def assign (phase : Phase) (reg : Option RegionPtr) (addr endAddr : Nat) :
    List (RegionNode → RegionNode) :=
  (if phase.high then
    [fun rn => { rn with highAddr := addr }, fun rn => { rn with highReg := reg }] else []) ++
    if phase.low then
      [fun rn => { rn with lowAddr := endAddr }, fun rn => { rn with lowReg := reg }] else []

theorem assignAll_set (phase : Phase) (reg : RegionPtr) (addr endAddr : Nat) :
    assignAll (assign phase (some reg) addr endAddr) = setFields phase reg addr endAddr := by
  cases phase <;> rfl

theorem assignAll_clear (phase : Phase) :
    assignAll (assign phase none 0 0) = clearFields phase := by
  cases phase <;> rfl

/-- The high half is left to the phases that write it. -/
theorem read_assign {phase : Phase} (hlow : phase.high = false) {reg : Option RegionPtr}
    {addr endAddr : Nat} {f : RegionNode → RegionNode} (hf : f ∈ assign phase reg addr endAddr)
    (rn : RegionNode) : Half.high.read (f rn) = Half.high.read rn := by
  cases phase with
  | head => cases hlow
  | full => cases hlow
  | tail =>
      simp only [assign, Phase.high, Phase.low, Bool.false_eq_true, if_false, if_true,
        List.nil_append, List.mem_cons, List.not_mem_nil, or_false] at hf
      rcases hf with rfl | rfl <;> rfl

variable (g)

/-- The stores of one slot of a registration. -/
def registerStores (reg : RegionPtr) (addr endAddr : Nat) (slot : Nat × Phase) : List (Store g) :=
  (visitWrites (assign slot.2 (some reg) addr endAddr) g.nonLeafNodesDepth).map
    (Store.mk (g.path slot.1))

/-- The stores of one call of `recursiveDelete`. -/
def deleteSlotStores (slot : Nat × Phase) : List (Store g) :=
  (leaveWrites (assign slot.2 none 0 0) g.nonLeafNodesDepth).map (Store.mk (g.path slot.1))

/-- The stores of `addRegion` to the map. -/
def addStores (reg : RegionPtr) (addr endAddr : Nat) : List (Store g) :=
  (slots g addr endAddr).flatMap (registerStores g reg addr endAddr)

/-- The stores of `deleteRegion` to the map. -/
def deleteStores (region : ShamblesRegion) : List (Store g) :=
  match extent region with
  | some (addr, endAddr) => (slots g addr endAddr).flatMap (deleteSlotStores g)
  | none => []

/-- Stores on one path. -/
theorem foldlM_onPath (p : Path (g.nonLeafNodesDepth + 1)) (ws : List (Write RegionNode))
    (root : Root g) :
    (ws.map (Store.mk p)).foldlM Store.apply root =
      ws.foldlM (Forest.write RegionNode.zero p) root := by
  rw [List.foldlM_map]
  rfl

theorem foldlM_registerStores (root : Root g) (reg : RegionPtr) (addr endAddr : Nat)
    (slot : Nat × Phase) :
    (registerStores g reg addr endAddr slot).foldlM Store.apply root =
      some (registerSlot g root slot.1 (setFields slot.2 reg addr endAddr)) := by
  rw [registerStores, foldlM_onPath, Forest.foldlM_visitWrites, assignAll_set, registerSlot_eq]

theorem foldlM_deleteSlotStores {root root' : Root g} {slot : Nat × Phase}
    (h : deleteSlot g root slot.1 slot.2 = some root') :
    (deleteSlotStores g slot).foldlM Store.apply root = some root' := by
  rw [deleteSlot_eq, ← assignAll_clear] at h
  rw [deleteSlotStores, foldlM_onPath, Forest.foldlM_leaveWrites _ h]

/-- The stores of `addRegion` make what the function makes. -/
theorem foldlM_addStores (root : Root g) (reg : RegionPtr) (addr endAddr : Nat) :
    (addStores g reg addr endAddr).foldlM Store.apply root =
      some (registerRegion g root reg addr endAddr) := by
  unfold addStores registerRegion
  induction slots g addr endAddr generalizing root with
  | nil => rfl
  | cons slot rest ih =>
      rw [List.flatMap_cons, List.foldlM_append, foldlM_registerStores, Option.bind_eq_bind,
        Option.bind_some, ih, List.foldl_cons]

theorem foldlM_deleteStores {root root' : Root g} {region : ShamblesRegion}
    (h : deleteRegion g root region = some root') :
    (deleteStores g region).foldlM Store.apply root = some root' := by
  unfold deleteRegion at h
  unfold deleteStores
  cases hext : extent region with
  | none => simp [hext] at h
  | some ends =>
      rcases ends with ⟨addr, endAddr⟩
      simp only [hext] at h ⊢
      generalize slots g addr endAddr = places at h ⊢
      induction places generalizing root with
      | nil => exact h
      | cons slot rest ih =>
          rw [List.foldlM_cons] at h
          rcases Option.bind_eq_some_iff.1 h with ⟨root₁, hslot, hrest⟩
          rw [List.flatMap_cons, List.foldlM_append, foldlM_deleteSlotStores g hslot,
            Option.bind_eq_bind, Option.bind_some, ih hrest]

variable {g}

/-- The store leaves the high half of the record of an address. -/
def Store.Spares (st : Store g) (addr : Nat) : Prop :=
  st.write.Spares Half.high.read st.path (g.path addr)

section Kinds

variable {st : Store g} {reg : RegionPtr} {addr endAddr a : Nat} {region : ShamblesRegion}

theorem grows_of_addStores (h : st ∈ addStores g reg addr endAddr) : st.write.grows = true := by
  rcases List.mem_flatMap.1 h with ⟨slot, -, hst⟩
  rcases List.mem_map.1 hst with ⟨w, hw, rfl⟩
  exact grows_of_mem hw

theorem shrinks_of_deleteStores (h : st ∈ deleteStores g region) : st.write.shrinks = true := by
  unfold deleteStores at h
  split at h
  · rcases List.mem_flatMap.1 h with ⟨slot, -, hst⟩
    rcases List.mem_map.1 hst with ⟨w, hw, rfl⟩
    exact shrinks_of_mem hw
  · cases h

/-- A region leaves a record whose high half none of its slots writes. -/
theorem addStores_spares
    (hslots : ∀ slot ∈ slots g addr endAddr, g.path slot.1 = g.path a → slot.2.high = false)
    (h : st ∈ addStores g reg addr endAddr) : st.Spares a := by
  rcases List.mem_flatMap.1 h with ⟨slot, hslot, hst⟩
  rcases List.mem_map.1 hst with ⟨w, hw, rfl⟩
  rintro f rfl hpath rn
  exact read_assign (hslots slot hslot hpath) (mem_of_edit_visit hw) rn

theorem deleteStores_spares (hext : extent region = some (addr, endAddr))
    (hslots : ∀ slot ∈ slots g addr endAddr, g.path slot.1 = g.path a → slot.2.high = false)
    (h : st ∈ deleteStores g region) : st.Spares a := by
  simp only [deleteStores, hext] at h
  rcases List.mem_flatMap.1 h with ⟨slot, hslot, hst⟩
  rcases List.mem_map.1 hst with ⟨w, hw, rfl⟩
  rintro f rfl hpath rn
  exact read_assign (hslots slot hslot hpath) (mem_of_edit_leave hw) rn

end Kinds

/-! ## Regions that have been entered -/

/-- The high half of the record of `addr` says that the region at `p` starts there. -/
def Anchored (g : Geometry) (root : Root g) (addr : Nat) (p : RegionPtr) : Prop :=
  (findSlot g root addr).map Half.high.read = some (some p, addr)

namespace Anchored

variable {root root' : Root g} {a : Nat} {p : RegionPtr} {st : Store g}

/-- A store of `addRegion` for another region. -/
theorem grow (h : Anchored g root a p) (hst : st.apply root = some root')
    (hgrows : st.write.grows = true) (hspares : st.Spares a) : Anchored g root' a p := by
  unfold Anchored at h ⊢
  rw [findSlot_eq] at h ⊢
  exact (Forest.find_write hst hspares).1 hgrows h

/-- A store of `deleteRegion` for another region, backwards. -/
theorem shrink (h : Anchored g root' a p) (hst : st.apply root = some root')
    (hshrinks : st.write.shrinks = true) (hspares : st.Spares a) : Anchored g root a p := by
  unfold Anchored at h ⊢
  rw [findSlot_eq] at h ⊢
  exact (Forest.find_write hst hspares).2 hshrinks h

/-- What is there when a deletion is over has been there all the time. -/
theorem of_rest {sts : List (Store g)} : ∀ {root : Root g}, Anchored g root' a p →
    sts.foldlM Store.apply root = some root' → (∀ st ∈ sts, st.write.shrinks = true) →
      (∀ st ∈ sts, st.Spares a) → Anchored g root a p := by
  induction sts with
  | nil =>
      intro root h hroot _ _
      obtain rfl := Option.some.inj hroot
      exact h
  | cons st sts ih =>
      intro root h hroot hshrinks hspares
      rw [List.foldlM_cons] at hroot
      rcases Option.bind_eq_some_iff.1 hroot with ⟨root₁, hst, hrest⟩
      have hnext := ih h hrest (fun st hst => hshrinks st (List.mem_cons_of_mem _ hst))
        (fun st hst => hspares st (List.mem_cons_of_mem _ hst))
      exact hnext.shrink hst (hshrinks st List.mem_cons_self) (hspares st List.mem_cons_self)

end Anchored

section Regions

variable {W : Nat} {region region' : ShamblesRegion} {p : RegionPtr}

/-- In the slot of an unaligned start, no other region writes the high half. -/
theorem Fits.head_alone (hg : g.Regular) (hfull : 39 ≤ g.nonLeafShift0) (h : Fits g W region)
    (h' : Fits g W region') (hapart : RangesApart region' region)
    (hmod : region.start % 2 ^ g.regionShift ≠ 0) :
    ∀ slot ∈ slots g region'.start (wrap64 (region'.start + region'.size)),
      g.path slot.1 = g.path region.start → slot.2.high = false := by
  rintro ⟨addr0, phase⟩ hslot hpath
  have hhead : (⟨region.start, .head, 0, region.start, wrap64 (region.start + region.size)⟩ :
      Registration) ∈ registrations g 0 region := by
    simp only [registrations, h.extent, registrationsOf]
    refine List.mem_map.2 ⟨(region.start, .head), ?_, rfl⟩
    exact (mem_slots_iff hg h.size h.bound).2 (Or.inl ⟨rfl, rfl, hmod⟩)
  have hother : (⟨addr0, phase, 0, region'.start, wrap64 (region'.start + region'.size)⟩ :
      Registration) ∈ registrations g 0 region' := by
    simp only [registrations, h'.extent, registrationsOf]
    exact List.mem_map.2 ⟨(addr0, phase), hslot, rfl⟩
  have hcompatible := h'.compatible hg hfull h hapart hother hhead
  rw [← Bool.not_eq_true]
  intro hhigh
  exact hcompatible hpath .high ⟨hhigh, rfl⟩

/-- A region is found at its start unless that is a slot boundary. -/
theorem Mapped.getRegion_start_iff {s : TreeState g} (hg : g.Regular) (hfull : 39 ≤ g.nonLeafShift0)
    (h : Mapped g W s) (hlive : (p, region) ∈ s.regions) :
    getRegion g s.root region.start = some p ↔ region.start % 2 ^ g.regionShift ≠ 0 := by
  have hsize := (h.fits _ hlive).size
  have hpos : 0 < region.size := lt_of_lt_of_le (Nat.two_pow_pos _) hsize
  -- the region ends in a later slot
  have hnext : g.slot (region.start + 2 ^ g.regionShift) = g.slot region.start + 1 := by
    rw [g.slot_eq, g.slot_eq, Nat.add_div_right _ (Nat.two_pow_pos _)]
  have hend : g.slot (region.start + 2 ^ g.regionShift) ≤ g.slot (region.start + region.size) := by
    rw [g.slot_eq, g.slot_eq]
    exact Nat.div_le_div_right (Nat.add_le_add_left hsize _)
  rw [h.getRegion_eq_some_iff hg hfull hlive (le_refl _) (Nat.lt_add_of_pos_right hpos)]
  constructor
  · rintro (⟨_, hlt, _⟩ | ⟨_, hmod⟩ | ⟨_, hlast, _⟩)
    · exact absurd hlt (lt_irrefl _)
    · exact hmod
    · omega
  · intro hmod
    exact Or.inr (Or.inl ⟨rfl, hmod⟩)

/-- A live region with an unaligned start has been entered. -/
theorem Mapped.anchored {s : TreeState g} (hg : g.Regular) (hfull : 39 ≤ g.nonLeafShift0)
    (h : Mapped g W s) (hlive : (p, region) ∈ s.regions)
    (hmod : region.start % 2 ^ g.regionShift ≠ 0) : Anchored g s.root region.start p := by
  have hfits : Fits g W region := h.fits _ hlive
  have hsize : 0 < region.size := lt_of_lt_of_le (Nat.two_pow_pos _) hfits.size
  have hwindow := hfits.window
  have hbound := hfits.bound
  have hat : RegisteredAt g region .head region.start :=
    ⟨_, (mem_slots_iff hg hfits.size hfits.bound).2 (Or.inl ⟨rfl, rfl, hmod⟩), rfl⟩
  have hread := h.written hg hfull (div_window (by omega) (by omega)) (by omega) hlive hat .high rfl
  rw [record, Forest.look, Tree.look] at hread
  unfold Anchored
  rw [findSlot_eq, Forest.find]
  cases hfind : Tree.find g.nonLeafNodesDepth (g.path region.start).2
      (s.root (g.path region.start).1) with
  | none => simp [hfind] at hread
  | some rn => simpa [hfind, Half.pick] using hread

end Regions

/-! ## Loads -/

/-- The loads of `getRegion`. -/
inductive Load
  /-- The pointer of the node at this level: `nl->nln`, at the last level `nl->regions`. -/
  | pointer (level : Nat)
  | highAddr
  | highReg
  | lowAddr
  | lowReg
  deriving DecidableEq, Repr

variable (g) in
/-- The array the load is made from is there. -/
def Load.valid (root : Root g) (addr : Nat) : Load → Bool
  | .pointer 0 => true
  | .pointer (level + 1) =>
      Tree.reach g.nonLeafNodesDepth level (g.path addr).2 (root (g.path addr).1)
  | _ => (findSlot g root addr).isSome

variable (g) in
/-- One load of `getRegion`: the next load, or the answer; `none` if it is made from an array that is
not there. -/
def load (root : Root g) (addr : Nat) (l : Load) : Option (Load ⊕ Option RegionPtr) :=
  match l with
  | .pointer level =>
      if l.valid g root addr then
        if Tree.reach g.nonLeafNodesDepth level (g.path addr).2 (root (g.path addr).1) then
          if level < g.nonLeafNodesDepth then some (.inl (.pointer (level + 1)))
          else some (.inl .highAddr)
        else
          some (.inr none)
      else
        none
  | .highAddr => (findSlot g root addr).map fun rn =>
      if rn.highAddr ≤ addr then .inl .highReg else .inl .lowAddr
  | .highReg => (findSlot g root addr).map fun rn => .inr rn.highReg
  | .lowAddr => (findSlot g root addr).map fun rn =>
      if addr < rn.lowAddr then .inl .lowReg else .inr none
  | .lowReg => (findSlot g root addr).map fun rn => .inr rn.lowReg

/-- The loads on the way to `highReg`. -/
def Load.Upper (g : Geometry) : Load → Prop
  | .pointer level => level ≤ g.nonLeafNodesDepth
  | .highAddr => True
  | .highReg => True
  | .lowAddr => False
  | .lowReg => False

/-- The loads from `l` on, all made in the same memory, answer with `r`. -/
inductive Answers (g : Geometry) (root : Root g) (addr : Nat) : Load → Option RegionPtr → Prop
  | last {l : Load} {r : Option RegionPtr} (h : load g root addr l = some (.inr r)) :
      Answers g root addr l r
  | next {l : Load} (l' : Load) {r : Option RegionPtr} (h : load g root addr l = some (.inl l'))
      (hrest : Answers g root addr l' r) : Answers g root addr l r

section Loads

variable {root : Root g} {a : Nat} {p : RegionPtr} {l : Load}

theorem Anchored.find (h : Anchored g root a p) :
    ∃ rn, findSlot g root a = some rn ∧ rn.highReg = some p ∧ rn.highAddr = a := by
  rcases Option.map_eq_some_iff.1 h with ⟨rn, hrn, hread⟩
  exact ⟨rn, hrn, congrArg Prod.fst hread, congrArg Prod.snd hread⟩

theorem Anchored.reach (h : Anchored g root a p) {level : Nat} (hle : level ≤ g.nonLeafNodesDepth) :
    Tree.reach g.nonLeafNodesDepth level (g.path a).2 (root (g.path a).1) = true := by
  rcases h.find with ⟨rn, hrn, -, -⟩
  rw [findSlot_eq] at hrn
  exact Tree.reach_of_find hrn hle

/-- No array is missing. -/
theorem Anchored.valid (h : Anchored g root a p) (hl : l.Upper g) : l.valid g root a = true := by
  rcases h.find with ⟨rn, hrn, -, -⟩
  cases l with
  | pointer level =>
      cases level with
      | zero => rfl
      | succ level => exact h.reach (Nat.le_of_succ_le hl)
  | highAddr => simp [Load.valid, hrn]
  | highReg => simp [Load.valid, hrn]
  | lowAddr => cases hl
  | lowReg => cases hl

/-- Each load at the start of a region that has been entered leads on towards the region. -/
theorem load_of_anchored (h : Anchored g root a p) (hl : l.Upper g) :
    load g root a l = some (.inr (some p)) ∨
      ∃ l', l'.Upper g ∧ load g root a l = some (.inl l') := by
  rcases h.find with ⟨rn, hrn, hreg, haddr⟩
  cases l with
  | pointer level =>
      have hvalid := h.valid hl
      have hreach := h.reach hl
      by_cases hlt : level < g.nonLeafNodesDepth
      · exact Or.inr ⟨.pointer (level + 1), hlt, by simp [load, hvalid, hreach, hlt]⟩
      · exact Or.inr ⟨.highAddr, trivial, by simp [load, hvalid, hreach, hlt]⟩
  | highAddr => exact Or.inr ⟨.highReg, trivial, by simp [load, hrn, haddr]⟩
  | highReg => exact Or.inl (by simp [load, hrn, hreg])
  | lowAddr => cases hl
  | lowReg => cases hl

/-- The loads of the record. -/
theorem answers_record {rn : RegionNode} (h : findSlot g root a = some rn) :
    Answers g root a .highAddr (getRegion g root a) := by
  simp only [getRegion, h]
  by_cases hhigh : rn.highAddr ≤ a
  · rw [if_pos hhigh]
    exact .next .highReg (by simp [load, h, hhigh]) (.last (by simp [load, h]))
  · rw [if_neg hhigh]
    refine .next .lowAddr (by simp [load, h, hhigh]) ?_
    by_cases hlow : a < rn.lowAddr
    · rw [if_pos hlow]
      exact .next .lowReg (by simp [load, h, hlow]) (.last (by simp [load, h]))
    · rw [if_neg hlow]
      exact .last (by simp [load, h, hlow])

theorem answers_pointer (root : Root g) (a : Nat) : ∀ {level n : Nat},
    level + n = g.nonLeafNodesDepth → (Load.pointer level).valid g root a = true →
      Answers g root a (.pointer level) (getRegion g root a) := by
  intro level n
  induction n generalizing level with
  | zero =>
      intro hdepth hvalid
      obtain rfl : level = g.nonLeafNodesDepth := hdepth
      have hlast := Tree.reach_last (g.path a).2 (root (g.path a).1)
      cases hfind : findSlot g root a with
      | none =>
          have hfind' := hfind
          rw [findSlot_eq, Forest.find] at hfind'
          rw [hfind', Option.isSome_none] at hlast
          refine .last ?_
          simp [load, hvalid, hlast, getRegion, hfind]
      | some rn =>
          have hfind' := hfind
          rw [findSlot_eq, Forest.find] at hfind'
          rw [hfind', Option.isSome_some] at hlast
          refine .next .highAddr ?_ (answers_record hfind)
          simp [load, hvalid, hlast]
  | succ n ih =>
      intro hdepth hvalid
      cases hreach : Tree.reach g.nonLeafNodesDepth level (g.path a).2 (root (g.path a).1) with
      | false =>
          -- an array is missing on the way to the record
          have hfind : findSlot g root a = none := by
            cases hfind : findSlot g root a with
            | none => rfl
            | some rn =>
                rw [findSlot_eq] at hfind
                rw [Tree.reach_of_find hfind (by omega)] at hreach
                cases hreach
          refine .last ?_
          simp [load, hvalid, hreach, getRegion, hfind]
      | true =>
          have hlt : level < g.nonLeafNodesDepth := by omega
          refine .next (.pointer (level + 1)) ?_ (ih (by omega) hreach)
          simp [load, hvalid, hreach, hlt]

/-- Undisturbed, the loads answer as `getRegion` does. -/
theorem answers_getRegion (root : Root g) (a : Nat) :
    Answers g root a (.pointer 0) (getRegion g root a) :=
  answers_pointer root a (Nat.zero_add _) rfl

end Loads

/-- A release begins by clearing `highAddr` in the record of its start. -/
theorem Fits.deleteStores_eq {W : Nat} {region : ShamblesRegion} (hg : g.Regular)
    (h : Fits g W region) (hmod : region.start % 2 ^ g.regionShift ≠ 0) :
    ∃ rest, deleteStores g region =
      ⟨g.path region.start, .edit fun rn => { rn with highAddr := 0 }⟩ :: rest := by
  rcases leaveWrites_cons (fun rn : RegionNode => { rn with highAddr := 0 })
    [fun rn => { rn with highReg := none }] g.nonLeafNodesDepth with ⟨writes, hwrites⟩
  have hhead : deleteSlotStores g (region.start, .head) =
      ⟨g.path region.start, .edit fun rn => { rn with highAddr := 0 }⟩ ::
        writes.map (Store.mk (g.path region.start)) := by
    rw [deleteSlotStores, ← List.map_cons, ← hwrites]
    rfl
  simp only [deleteStores, h.extent, slots_eq hg h.size h.bound, if_pos hmod, List.singleton_append,
    List.flatMap_cons, hhead]
  exact ⟨_, rfl⟩

/-- With the high half of its record cleared up to `highReg`, a region that is being deleted is what
the loads for any address of the slot answer with: for the addresses in front of the region too, where
another block may lie. -/
theorem lookup_finds_deleted_region {s : TreeState g} {W : Nat} {p : RegionPtr}
    {region : ShamblesRegion} (hg : g.Regular) (hfull : 39 ≤ g.nonLeafShift0) (h : Mapped g W s)
    (hlive : (p, region) ∈ s.regions) (hmod : region.start % 2 ^ g.regionShift ≠ 0) {a : Nat}
    (ha : a < 2 ^ 64) (hslot : g.slot a = g.slot region.start) :
    ∃ st rest root, deleteStores g region = st :: rest ∧ st.apply s.root = some root ∧
      Answers g root a (.pointer 0) (some p) := by
  have hfits : Fits g W region := h.fits _ hlive
  rcases hfits.deleteStores_eq hg hmod with ⟨rest, hrest⟩
  rcases (h.anchored hg hfull hlive hmod).find with ⟨rn, hrn, hreg, -⟩
  have hpos : 0 < region.size := lt_of_lt_of_le (Nat.two_pow_pos _) hfits.size
  have hstart : region.start < 2 ^ 64 := lt_of_lt_of_le (Nat.lt_add_of_pos_right hpos) hfits.bound
  have hpath : g.path a = g.path region.start := (hg.path_eq_iff ha hstart).2 (by rw [hslot])
  rw [findSlot_eq] at hrn
  have hedit : ∃ root, Store.apply s.root ⟨g.path region.start, _⟩ = some root ∧ _ :=
    Forest.find_edit (fun rn => { rn with highAddr := 0 }) hrn
  rcases hedit with ⟨root, hroot, hfind⟩
  refine ⟨_, rest, root, hrest, hroot, ?_⟩
  rw [← hpath, ← findSlot_eq] at hfind
  have hanswers := answers_getRegion root a
  simpa [getRegion, hfind, hreg] using hanswers

end Structures
end Shambles
