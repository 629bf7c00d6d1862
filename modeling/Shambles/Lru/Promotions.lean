import Shambles.Lru.Inclusion
import Shambles.Lru.Placement
import Shambles.Plugins.Counters

/-!
# Promotions — slow chunks that a release makes fast

Each fast chunk of a released region leaves its place to the head of the slow list, which may be a
chunk of the same region, to be released later in the loop, or one that stays.  The promotion is
logged if the descriptor of the promoted chunk lies behind those of the released region.

* `promotions` follows the loop; `Represents.promotions_spec` says what it does to tags and hooks.
* `promotedLive` are the promoted chunks that stay live, as seen from the states before and after.
* `mem_promotedLive_iff`: the same chunks, read off the state before the release.
-/

namespace Shambles
namespace Lru

open AssocList Structures Plugins

/-! ## The release loop -/

/-- The nodes that the loop over `ns` promotes, in order. -/
def promotions (region : ShamblesRegion) : State → List NodePtr → List NodePtr
  | _, [] => []
  | s, n :: rest => (promotion s n).toList ++ promotions region (freeChunk region s n) rest

/-- A promotion that was logged, as a hook call. -/
def promotionHook (s : State) (n : NodePtr) : HookCall :=
  .migration .slow2fast (s.chunk n).chunk.size

theorem freeChunk_promotion (region : ShamblesRegion) (s : State) (n : NodePtr) :
    (∀ x, (freeChunk region s n).loc x =
        if x ∈ (promotion s n).toList then .fast else s.loc x) ∧
      hooks (freeChunk region s n).trace = hooks s.trace ++
        ((promotion s n).toList.filter fun x => BoundOnFree region s x).map (promotionHook s) := by
  rcases (freeChunk_cases region s n).2 with ⟨hnone, hloc, htrace⟩ | ⟨p, hp, hloc, htrace⟩
  · simp [hnone, hloc, htrace]
  · rw [hloc, htrace, hp]
    refine ⟨fun x => by simp [Function.update_apply, eq_comm], ?_⟩
    by_cases hbound : BoundOnFree region s p
    · simp [hbound, promotionHook]
    · simp [hbound]

namespace Represents

variable {C : Nat} {s : State} {m l : List NodePtr}

theorem mem_slow_iff (h : Represents C s m l) {x : NodePtr} :
    x ∈ l ↔ x ∈ m ++ l ∧ s.loc x = .slow := by
  constructor
  · intro hx
    exact ⟨List.mem_append_right m hx, h.loc_slow x hx⟩
  · rintro ⟨hx, hslow⟩
    rcases List.mem_append.1 hx with hm | hl
    · rw [h.loc_fast x hm] at hslow
      cases hslow
    · exact hl

/-- One iteration promotes a slow chunk. -/
theorem mem_of_promotion (h : Represents C s m l) {n x : NodePtr}
    (hx : x ∈ (promotion s n).toList) : x ∈ l := by
  have hsome : promotion s n = some x := by simpa using hx
  exact h.mem_of_lru_head (promotion_eq_some.1 hsome).2

/-- The whole loop: every chunk is promoted at most once, it was slow before and is fast
afterwards, no other tag changes, and the promotions behind the descriptors are logged. -/
theorem promotions_spec (region : ShamblesRegion) {ns : List NodePtr} :
    ∀ {s : State} {m l : List NodePtr}, Represents C s m l → ns.Nodup → (∀ n ∈ ns, n ∈ m ++ l) →
      (promotions region s ns).Nodup ∧ (∀ x ∈ promotions region s ns, x ∈ l) ∧
      (∀ x, (ns.foldl (freeChunk region) s).loc x =
        if x ∈ promotions region s ns then .fast else s.loc x) ∧
      hooks (ns.foldl (freeChunk region) s).trace = hooks s.trace ++
        ((promotions region s ns).filter fun x => BoundOnFree region s x).map (promotionHook s) := by
  induction ns with
  | nil =>
      intro s m l _ _ _
      simp [promotions]
  | cons n rest ih =>
      -- The first iteration, then the loop from the state it leaves; the lists are others there.
      intro s m l h hnd hmem
      rcases h.freeChunk_spec region (hmem n (by simp)) with ⟨m₁, l₁, h₁, heq⟩
      rcases freeChunk_promotion region s n with ⟨hloc, hhooks⟩
      have hchunk := (freeChunk_cases region s n).1
      have hrest : ∀ x ∈ rest, x ∈ m₁ ++ l₁ := by
        intro x hx
        have hxn : x ≠ n := fun hxn => (List.nodup_cons.1 hnd).1 (hxn ▸ hx)
        rw [heq]
        exact (List.mem_erase_of_ne hxn).2 (hmem x (by simp [hx]))
      rcases ih h₁ hnd.of_cons hrest with ⟨hnodup, hslow, hlater, hlogged⟩
      -- What is slow after the iteration was slow before it, and was not promoted by it.
      have hkept : ∀ x ∈ l₁, x ∈ l ∧ x ∉ (promotion s n).toList := by
        intro x hx
        rcases h₁.mem_slow_iff.1 hx with ⟨hxmem, hxslow⟩
        rw [heq] at hxmem
        have hnot : x ∉ (promotion s n).toList := by
          intro hp
          rw [hloc x, if_pos hp] at hxslow
          cases hxslow
        rw [hloc x, if_neg hnot] at hxslow
        exact ⟨h.mem_slow_iff.2 ⟨List.mem_of_mem_erase hxmem, hxslow⟩, hnot⟩
      refine ⟨?_, ?_, ?_, ?_⟩
      · refine List.nodup_append'.2 ⟨?_, hnodup, ?_⟩
        · cases promotion s n <;> simp
        · intro x hx hx'
          exact (hkept x (hslow x hx')).2 hx
      · intro x hx
        rcases List.mem_append.1 hx with hx | hx
        · exact h.mem_of_promotion hx
        · exact (hkept x (hslow x hx)).1
      · intro x
        rw [List.foldl_cons, hlater x, hloc x]
        simp only [promotions, List.mem_append]
        by_cases hx : x ∈ (promotion s n).toList <;>
          by_cases hx' : x ∈ promotions region (freeChunk region s n) rest <;> simp [hx, hx']
      · have hsame : ∀ x, BoundOnFree region (freeChunk region s n) x ↔ BoundOnFree region s x := by
          intro x
          simp [BoundOnFree, hchunk]
        have hhook : promotionHook (freeChunk region s n) = promotionHook s := by
          funext x
          simp [promotionHook, hchunk]
        rw [List.foldl_cons, hlogged, hhooks]
        simp [promotions, hsame, hhook]

end Represents

/-! ## Promoted chunks that stay -/

/-- The live chunks that a release turns from slow to fast. -/
def promotedLive (s : State) : Event → List NodePtr
  | .free p =>
      match step s (.free p) with
      | some s' => (liveNodes s'.regions).filter fun n => s.loc n = .slow ∧ s'.loc n = .fast
      | none => []
  | _ => []

/-- Those of them whose promotion is not logged. -/
def unloggedLive (s : State) : Event → List NodePtr
  | .free p =>
      match s.regions.lookup p with
      | some region => (promotedLive s (.free p)).filter fun n => ¬ BoundOnFree region s n
      | none => []
  | _ => []

section Release

variable {C : Nat} {s : State} {L : List NodePtr} {p : RegionPtr} {region : ShamblesRegion}

theorem promotedLive_eq (hlive : s.regions.lookup p = some region) :
    promotedLive s (.free p) = (liveNodes (freeRegion s p region).regions).filter fun n =>
      s.loc n = .slow ∧ (freeRegion s p region).loc n = .fast := by
  simp [promotedLive, step, hlive]

/-- The nodes the loop of the release promotes. -/
def promotedBy (s : State) (p : RegionPtr) (region : ShamblesRegion) : List NodePtr :=
  promotions region (s.emit (unbind region)) (nodesOf p region)

theorem freeRegion_promotions (h : Refines C s L) (hlive : s.regions.lookup p = some region) :
    (promotedBy s p region).Nodup ∧
      (∀ x ∈ promotedBy s p region, LiveNode s.regions x ∧ s.loc x = .slow) ∧
      (∀ x, (freeRegion s p region).loc x =
        if x ∈ promotedBy s p region then .fast else s.loc x) ∧
      hooks (freeRegion s p region).trace = hooks s.trace ++
        ((promotedBy s p region).filter fun x => BoundOnFree region s x).map (promotionHook s) := by
  have hmem := h.mem_of_nodesOf hlive
  have hall := h.live
  rcases h.rep with ⟨m, l, hrep, rfl⟩
  rcases (hrep.emit (unbind region)).promotions_spec region (nodup_nodesOf p region) hmem with
    ⟨hnodup, hslow, hloc, hhooks⟩
  refine ⟨hnodup, ?_, hloc, ?_⟩
  · intro x hx
    have hxl := hslow x hx
    exact ⟨(hall x).1 (List.mem_append_right m hxl), hrep.loc_slow x hxl⟩
  · -- `unbind` calls no hook
    have hunbind : hooks (s.emit (unbind region)).trace = hooks s.trace := by simp [State.emit]
    rw [hunbind] at hhooks
    exact hhooks

/-- The promoted chunks of other regions are the live ones that change their tag. -/
theorem promotedLive_perm (h : Refines C s L) (hd : Described s)
    (hlive : s.regions.lookup p = some region) :
    (promotedLive s (.free p)).Perm ((promotedBy s p region).filter fun n => n.region ≠ p) := by
  rcases freeRegion_promotions h hlive with ⟨hnodup, hpromoted, hloc, _⟩
  have hd' : Described (freeRegion s p region) := hd.free
  rw [promotedLive_eq hlive]
  refine (List.perm_ext_iff_of_nodup (hd'.nodup_liveNodes.filter _) (hnodup.filter _)).2 ?_
  intro n
  simp only [List.mem_filter, hd'.mem_liveNodes, decide_eq_true_eq]
  constructor
  · rintro ⟨⟨r, hr, _⟩, hslow, hfast⟩
    rw [hloc n] at hfast
    by_cases hn : n ∈ promotedBy s p region
    · exact ⟨hn, (lookup_freeRegion hr).1⟩
    · rw [if_neg hn, hslow] at hfast
      cases hfast
  · rintro ⟨hn, hne⟩
    rcases hpromoted n hn with ⟨⟨r, hr, hi⟩, hslow⟩
    refine ⟨⟨r, ?_, hi⟩, hslow, by rw [hloc n, if_pos hn]⟩
    rw [freeRegion_regions, lookup_filter_ne]
    simpa [hne] using hr

/-- How many promotions are logged: the promoted chunks that stay, without the unlogged ones. -/
theorem logged_add_unlogged (h : Refines C s L) (hd : Described s)
    (hlive : s.regions.lookup p = some region) :
    ((promotedBy s p region).filter fun x => BoundOnFree region s x).length +
      (unloggedLive s (.free p)).length = (promotedLive s (.free p)).length := by
  have hperm := promotedLive_perm h hd hlive
  rcases freeRegion_promotions h hlive with ⟨_, hpromoted, _, _⟩
  -- A promotion that is logged is one of a chunk that stays.
  have hlogged : ((promotedBy s p region).filter fun x => BoundOnFree region s x) =
      ((promotedBy s p region).filter fun n => n.region ≠ p).filter
        fun x => BoundOnFree region s x := by
    rw [List.filter_filter]
    refine List.filter_congr ?_
    intro x hx
    by_cases hb : BoundOnFree region s x
    · simp [hb, hd.region_ne_of_boundOnFree hlive (hpromoted x hx).1 hb]
    · simp [hb]
  have hunlogged : unloggedLive s (.free p) =
      (promotedLive s (.free p)).filter fun n => ¬ BoundOnFree region s n := by
    simp only [unloggedLive, hlive]
  rw [hlogged, hunlogged, ← (hperm.filter _).length_eq]
  simpa [List.countP_eq_length_filter] using
    (List.length_eq_countP_add_countP (fun x => decide (BoundOnFree region s x))
      (l := promotedLive s (.free p))).symm

/-- Which chunks are promoted and stay can be told before the release. -/
theorem mem_promotedLive_iff (h : Refines C s L) (hd : Described s)
    (hlive : s.regions.lookup p = some region) {n : NodePtr} :
    n ∈ promotedLive s (.free p) ↔
      n ∈ ((recencyList s).filter fun n => n.region ≠ p).take C ∧ s.loc n = .slow := by
  have hd' : Described (freeRegion s p region) := hd.free
  have h' : Refines C (freeRegion s p region) (L.filter fun n => n.region ≠ p) := h.free hlive
  rw [promotedLive_eq hlive, h.recencyList_eq, List.mem_filter, hd'.mem_liveNodes]
  simp only [decide_eq_true_eq]
  -- Fast after the release are the first `C` of its recency list.
  constructor
  · rintro ⟨hn, hslow, hfast⟩
    exact ⟨(h'.mem_take_iff hn).1 hfast, hslow⟩
  · rintro ⟨htake, hslow⟩
    have hn := (h'.live n).1 (List.mem_of_mem_take htake)
    exact ⟨hn, hslow, (h'.mem_take_iff hn).2 htake⟩

end Release

theorem promotionsLogged_iff {C : Nat} {s : State} {L : List NodePtr} (h : Refines C s L)
    (hd : Described s) {e : Event} (he : Enabled s.regions e) :
    PromotionsLogged C s e ↔ unloggedLive s e = [] := by
  cases e with
  | alloc p region => exact iff_of_true trivial rfl
  | sample addr chunk => exact iff_of_true trivial rfl
  | free p =>
      rcases Option.ne_none_iff_exists'.1 he with ⟨region, hlive⟩
      simp only [PromotionsLogged, unloggedLive, hlive, List.filter_eq_nil_iff,
        mem_promotedLive_iff h hd hlive]
      simp

end Lru
end Shambles
