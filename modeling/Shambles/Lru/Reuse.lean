import Shambles.Lib.Recency
import Shambles.Lru.Inclusion
import Shambles.Lru.Promotions

/-!
# Reuse — what the LRU plugin keeps fast, by the history of the samples

The recency list of `lru.c` is a list of the kind `Recency` treats: new chunks are appended, released
ones removed, sampled ones moved to the front.  So the tier of a chunk is decided by the run alone.
Its reuse distance is the number of live chunks sampled since its own last sample; it is in fast
memory as long as that number is below the capacity, and a miss evicts the chunk whose distance is
about to reach it.
-/

namespace Shambles
namespace Lru

open Structures Plugins Recency

/-- What an event does to the recency list. -/
def toOp : Event → Op NodePtr
  | .alloc p region => .append (nodesOf p region)
  | .free p => .remove fun n => n.region = p
  | .sample _ (some n) => .touch n
  | .sample _ none => .idle

/-- When each chunk was sampled last, and when the chunks that never were were allocated. -/
def history (es : List Event) : History NodePtr :=
  es.foldl (fun H e => H.step (toOp e)) History.start

theorem history_snoc (es : List Event) (e : Event) :
    history (es ++ [e]) = (history es).step (toOp e) := by
  simp [history]

theorem recencyStep_eq (L : List NodePtr) (e : Event) : recencyStep L e = (toOp e).apply L := by
  cases e with
  | alloc p region => rfl
  | free p => simp [recencyStep, toOp, Op.apply]
  | sample addr chunk =>
      cases chunk with
      | none => rfl
      | some n => rfl

/-- The number of live chunks that have been sampled since `n` was; for a chunk that never was, all
those that were, and the unsampled ones allocated before it. -/
def distance (H : History NodePtr) (s : State) (n : NodePtr) : Nat :=
  (liveNodes s.regions).countP fun m => H.Ahead m n

section Runs

variable {C : Nat} {es : List Event} {s : State}

theorem sorted_step {L : List NodePtr} {H : History NodePtr} (hsorted : Sorted H L)
    (hlive : ∀ n, n ∈ L ↔ LiveNode s.regions n) {e : Event} (he : Enabled s.regions e) :
    Sorted (H.step (toOp e)) (recencyStep L e) := by
  rw [recencyStep_eq]
  refine hsorted.step ?_ ?_
  · cases e with
    | alloc p region =>
        refine ⟨nodup_nodesOf p region, ?_⟩
        intro n hn hmem
        rcases (hlive n).1 hmem with ⟨r, hr, _⟩
        rw [(mem_nodesOf.1 hn).1, he.1] at hr
        cases hr
    | free p => trivial
    | sample addr chunk => cases chunk <;> trivial
  · intro n hn
    cases e with
    | alloc p region => cases hn
    | free p => cases hn
    | sample addr chunk =>
        cases chunk with
        | none => cases hn
        | some m =>
            obtain rfl : m = n := by simpa [toOp] using hn
            exact (hlive m).2 he

theorem sorted_run (hmax : C ≤ INT_MAX) (h : Run system (lruInit C) es s) :
    Sorted (history es) (recency es) := by
  induction h with
  | nil => exact Sorted.nil
  | snoc hrun hen _ ih =>
      rw [history_snoc, recency_snoc]
      exact sorted_step ih (Refines.run hmax hrun).live hen

/-- Counting in the recency list is counting among the live chunks. -/
theorem distance_eq {L : List NodePtr} (href : Refines C s L) (hdesc : Described s)
    (H : History NodePtr) (n : NodePtr) : distance H s n = L.countP fun m => H.Ahead m n := by
  have hnodup : L.Nodup := by
    rcases href.rep with ⟨m, l, hrep, rfl⟩
    exact hrep.lists.nodup
  have hperm : (liveNodes s.regions).Perm L := by
    refine (List.perm_ext_iff_of_nodup hdesc.nodup_liveNodes hnodup).2 ?_
    intro m
    rw [hdesc.mem_liveNodes, href.live m]
  exact hperm.countP_eq _

theorem mem_take_iff_distance {L : List NodePtr} {H : History NodePtr} (href : Refines C s L)
    (hdesc : Described s) (hsorted : Sorted H L) {n : NodePtr} (hn : LiveNode s.regions n) (k : Nat) :
    n ∈ L.take k ↔ distance H s n < k := by
  rw [distance_eq href hdesc]
  exact hsorted.mem_take_iff ((href.live n).2 hn) k

end Runs

/-- The tiers and their changes told by reuse distances. -/
structure ByDistance (C : Nat) (H : History NodePtr) (s : State) : Prop where
  fast_iff : ∀ n, LiveNode s.regions n → (s.loc n = .fast ↔ distance H s n < C)
  /-- A sample is logged as a hit exactly if the distance is below the capacity. -/
  hit_iff : ∀ addr n s', LiveNode s.regions n → step s (.sample addr (some n)) = some s' →
    hits s' = hits s + if distance H s n < C then 1 else 0
  /-- A miss evicts the one chunk with as many chunks ahead of it as there is room for beside it. -/
  evicted_iff : ∀ addr n s', LiveNode s.regions n → step s (.sample addr (some n)) = some s' →
    C ≤ distance H s n → ∀ v, LiveNode s.regions v →
      (s.loc v = .fast ∧ s'.loc v = .slow ↔ distance H s v + 1 = C)

/-- After every run the reuse distances decide which chunks are fast, which samples hit and which
chunk a miss evicts. -/
theorem lru_by_distance {C : Nat} (hC : 1 ≤ C) (hmax : C ≤ INT_MAX) {es : List Event} {s : State}
    (h : Run system (lruInit C) es s) : ByDistance C (history es) s := by
  have href := Refines.run hmax h
  have hdesc := Described.run h
  have hsorted := sorted_run hmax h
  have hfast : ∀ n, LiveNode s.regions n → (s.loc n = .fast ↔ distance (history es) s n < C) := by
    intro n hn
    rw [href.mem_take_iff hn, mem_take_iff_distance href hdesc hsorted hn]
  refine ⟨hfast, ?_, ?_⟩
  · intro addr n s' hn hst
    rw [hits_step hst]
    simp only [newHits, hfast n hn]
  · intro addr n s' hn hst hfar v hv
    rcases href.sample hC addr hn with ⟨t, ht, href'⟩
    obtain rfl : t = s' := Option.some.inj (ht.symm.trans hst)
    have hv' : LiveNode t.regions v := by rwa [handleSample_regions ht]
    have hslow : t.loc v = .slow ↔ v ∉ (n :: (recency es).erase n).take C := by
      rw [← href'.mem_take_iff hv']
      cases t.loc v with
      | fast => simp
      | slow => simp
    -- the front of the list is what it was, with `n` before it
    have hback : n ∉ (recency es).take C := by
      rw [mem_take_iff_distance href hdesc hsorted hn]
      omega
    obtain ⟨k, rfl⟩ : ∃ k, C = k + 1 := ⟨C - 1, by omega⟩
    have hback' : n ∉ (recency es).take k :=
      fun hmem => hback (List.take_subset_take_left _ (Nat.le_succ k) hmem)
    rw [hslow, List.take_succ_cons, take_erase_of_notMem hback', hfast v hv, List.mem_cons,
      mem_take_iff_distance href hdesc hsorted hv]
    constructor
    · rintro ⟨hnear, hout⟩
      omega
    · intro heq
      have hne : v ≠ n := by
        rintro rfl
        omega
      exact ⟨by omega, fun hor => hor.elim hne (by omega)⟩

/-- Of three chunks the third is sampled, then the first. -/
def threeChunks : List Event :=
  [.alloc 1 ⟨0x18000, [⟨0x18000, 0x10000⟩, ⟨0x28000, 0x10000⟩, ⟨0x38000, 0x10000⟩], 0x900⟩,
    .sample 0x38010 (some ⟨1, 2⟩), .sample 0x18010 (some ⟨1, 0⟩)]

/-- With room for two, the second chunk has both others ahead of it. -/
theorem lru_by_distance_three_chunks :
    ∃ s, (Run system (lruInit 2) threeChunks s ∧ distance (history threeChunks) s ⟨1, 1⟩ = 2) ∧
      ByDistance 2 (history threeChunks) s := by
  rcases Run.of_exec_any system (lruInit 2) threeChunks
    (fun s => distance (history threeChunks) s ⟨1, 1⟩ = 2) (by decide) with ⟨s, hrun, hdist⟩
  exact ⟨s, ⟨hrun, hdist⟩, lru_by_distance (by decide) (by decide) hrun⟩

end Lru
end Shambles
