import Shambles.Lib.AssocList
import Shambles.Structures.RegionTree

/-!
# Registrations — the region map as a ledger

Adding and deleting a region is a series of edits of one slot each.  `Registration` names such an
edit, and the ledger of a state is the list of all registrations of its live regions.

What is to hold of the tree and its ledger is proved for one edit (`Maintained`) and carried from
there to whole regions and to runs: `Maintained.registerAll` and `Maintained.unregisterAll` for the
loops of `addRegion` and `deleteRegion`, `Tracks.add` and `Tracks.delete` for the two events.
-/

namespace Shambles
namespace Structures

open RadixTree AssocList

/-- The region `reg`, which extends from `addr` to `endAddr`, at the slot of `addr0`. -/
structure Registration where
  addr0 : Nat
  phase : Phase
  reg : RegionPtr
  addr : Nat
  endAddr : Nat
  deriving DecidableEq, Repr

section Edits

variable (g : Geometry)

def Registration.path (r : Registration) : Path (g.nonLeafNodesDepth + 1) :=
  g.path r.addr0

def register (root : Root g) (r : Registration) : Root g :=
  registerSlot g root r.addr0 (setFields r.phase r.reg r.addr r.endAddr)

def unregister (root : Root g) (r : Registration) : Option (Root g) :=
  deleteSlot g root r.addr0 r.phase

/-- The registrations of the region `reg` from `addr` to `endAddr`. -/
def registrationsOf (reg : RegionPtr) (addr endAddr : Nat) : List Registration :=
  (slots g addr endAddr).map fun slot => ⟨slot.1, slot.2, reg, addr, endAddr⟩

/-- The registrations of a live region, from its chunk table. -/
def registrations (reg : RegionPtr) (region : ShamblesRegion) : List Registration :=
  match extent region with
  | some (addr, endAddr) => registrationsOf g reg addr endAddr
  | none => []

def ledger (regions : List (RegionPtr × ShamblesRegion)) : List Registration :=
  regions.flatMap fun r => registrations g r.1 r.2

theorem registerRegion_eq (root : Root g) (reg : RegionPtr) (addr endAddr : Nat) :
    registerRegion g root reg addr endAddr =
      (registrationsOf g reg addr endAddr).foldl (register g) root := by
  unfold registerRegion registrationsOf
  rw [List.foldl_map]
  rfl

theorem deleteRegion_eq (root : Root g) (reg : RegionPtr) {region : ShamblesRegion}
    (h : (extent region).isSome = true) :
    deleteRegion g root region = (registrations g reg region).foldlM (unregister g) root := by
  rcases Option.isSome_iff_exists.1 h with ⟨⟨addr, endAddr⟩, hext⟩
  simp only [deleteRegion, registrations, registrationsOf, hext, List.foldlM_map]
  rfl

/-- Every entry of the ledger comes from a live region. -/
theorem mem_ledger {regions : List (RegionPtr × ShamblesRegion)} {r : Registration}
    (h : r ∈ ledger g regions) :
    ∃ region, (r.reg, region) ∈ regions ∧ extent region = some (r.addr, r.endAddr) ∧
      (r.addr0, r.phase) ∈ slots g r.addr r.endAddr := by
  rcases List.mem_flatMap.1 h with ⟨⟨p, region⟩, hregion, hr⟩
  cases hext : extent region with
  | none => simp [registrations, hext] at hr
  | some ends =>
      rcases ends with ⟨addr, endAddr⟩
      simp only [registrations, hext, registrationsOf] at hr
      rcases List.mem_map.1 hr with ⟨⟨addr0, phase⟩, hslot, rfl⟩
      exact ⟨region, hregion, hext, hslot⟩

theorem register_eq (root : Root g) (r : Registration) :
    register g root r = Forest.visit RegionNode.zero (setFields r.phase r.reg r.addr r.endAddr)
      (r.path g) root :=
  registerSlot_eq g root r.addr0 _

theorem unregister_eq (root : Root g) (r : Registration) :
    unregister g root r = Forest.leave (clearFields r.phase) (r.path g) root :=
  deleteSlot_eq g root r.addr0 r.phase

end Edits

/-! ## From one edit to a region -/

/-- `P` relates trees to ledgers whose entries are pairwise compatible, and survives every edit. -/
structure Maintained (g : Geometry) (Compatible : Registration → Registration → Prop)
    (P : Root g → List Registration → Prop) : Prop where
  symm : ∀ {r r'}, Compatible r r' → Compatible r' r
  perm : ∀ {root rs rs'}, P root rs → rs.Perm rs' → P root rs'
  register : ∀ {root r rs}, P root rs → (∀ r' ∈ rs, Compatible r r') →
    P (register g root r) (r :: rs)
  unregister : ∀ {root r rs}, P root (r :: rs) →
    ∃ root', unregister g root r = some root' ∧ P root' rs

namespace Maintained

variable {g : Geometry} {Compatible : Registration → Registration → Prop}
  {P : Root g → List Registration → Prop}

theorem registerAll (h : Maintained g Compatible P) {news : List Registration} :
    ∀ {root : Root g} {rs : List Registration}, P root rs → news.Pairwise Compatible →
      (∀ r ∈ news, ∀ r' ∈ rs, Compatible r r') →
      P (news.foldl (Structures.register g) root) (news ++ rs) := by
  induction news with
  | nil =>
      intro root rs hP _ _
      exact hP
  | cons r news ih =>
      intro root rs hP hpair hcross
      rcases List.pairwise_cons.1 hpair with ⟨hr, hnews⟩
      have hone : P (Structures.register g root r) (r :: rs) :=
        h.register hP (hcross r (by simp))
      have hrest := ih hone hnews (by
        intro x hx y hy
        rcases List.mem_cons.1 hy with rfl | hy
        · exact h.symm (hr x hx)
        · exact hcross x (by simp [hx]) y hy)
      -- The loop enters `r` first, so it ends up behind the others in the ledger.
      exact h.perm hrest List.perm_middle

theorem unregisterAll (h : Maintained g Compatible P) {olds : List Registration} :
    ∀ {root : Root g} {rs : List Registration}, P root (olds ++ rs) →
      ∃ root', olds.foldlM (Structures.unregister g) root = some root' ∧ P root' rs := by
  induction olds with
  | nil =>
      intro root rs hP
      exact ⟨root, rfl, hP⟩
  | cons r olds ih =>
      intro root rs hP
      rcases h.unregister hP with ⟨root₁, hroot₁, hP₁⟩
      rcases ih hP₁ with ⟨root₂, hroot₂, hP₂⟩
      exact ⟨root₂, by simp [List.foldlM_cons, hroot₁, hroot₂], hP₂⟩

end Maintained

/-! ## From a region to a run -/

/-- Every live region has one entry in the table and an extent, and `P` holds of the tree and its
ledger. -/
structure Tracks (g : Geometry) (P : Root g → List Registration → Prop) (s : TreeState g) :
    Prop where
  keys : (s.regions.map Prod.fst).Nodup
  extents : ∀ r ∈ s.regions, (extent r.2).isSome = true
  tree : P s.root (ledger g s.regions)

namespace Tracks

variable {g : Geometry} {Compatible : Registration → Registration → Prop}
  {P : Root g → List Registration → Prop} {s s' : TreeState g} {p : RegionPtr}
  {region : ShamblesRegion} {addr endAddr : Nat}

theorem init (h : P (Forest.empty _) []) : Tracks g P (TreeState.init g) :=
  ⟨by simp [TreeState.init], by simp [TreeState.init], h⟩

theorem add (hP : Maintained g Compatible P) (h : Tracks g P s)
    (hfresh : s.regions.lookup p = none) (hext : extent region = some (addr, endAddr))
    (hpair : (registrationsOf g p addr endAddr).Pairwise Compatible)
    (hcross : ∀ r ∈ registrationsOf g p addr endAddr, ∀ r' ∈ ledger g s.regions,
      Compatible r r') :
    Tracks g P (s.add p (region, registerRegion g s.root p addr endAddr)) := by
  have hregs : registrations g p region = registrationsOf g p addr endAddr := by
    simp [registrations, hext]
  refine ⟨?_, ?_, ?_⟩
  · exact List.nodup_cons.2 ⟨notMem_keys_of_lookup hfresh, h.keys⟩
  · intro r hr
    rcases List.mem_cons.1 hr with rfl | hr
    · simp [hext]
    · exact h.extents r hr
  · have htree := hP.registerAll h.tree hpair hcross
    rw [← registerRegion_eq, ← hregs] at htree
    exact htree

theorem delete (hP : Maintained g Compatible P) (h : Tracks g P s)
    (hlive : s.regions.lookup p = some region) :
    ∃ root', deleteRegion g s.root region = some root' ∧
      Tracks g P ⟨root', s.regions.filter fun r => r.1 ≠ p⟩ := by
  have hperm := perm_cons_filter h.keys hlive
  have hext : (extent region).isSome = true :=
    h.extents (p, region) (hperm.mem_iff.2 (by simp))
  have hledger : P s.root (registrations g p region ++
      ledger g (s.regions.filter fun r => r.1 ≠ p)) :=
    hP.perm h.tree (hperm.flatMap_right _)
  rcases hP.unregisterAll hledger with ⟨root', hroot', htree⟩
  refine ⟨root', ?_, ?_, ?_, htree⟩
  · rw [deleteRegion_eq g s.root p hext]
    exact hroot'
  · exact h.keys.sublist (List.filter_sublist.map _)
  · intro r hr
    exact h.extents r (List.mem_of_mem_filter hr)

end Tracks

end Structures
end Shambles
