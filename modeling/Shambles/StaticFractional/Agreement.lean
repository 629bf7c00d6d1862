import Shambles.StaticFractional.Model
import Shambles.Structures.ChunkInfo
import Shambles.Structures.Refcounts

/-!
# Agreement — the two builds place memory alike

Both versions of `bindAlloc` carry out one `plan`: a list of sizes with their tiers, laid out from
the start of the allocation on.  What is said about the plan (the sizes add up, so that the ranges
tile the allocation) holds for both builds, and the marks of the logging build are read off the
same plan.
-/

namespace Shambles
namespace StaticFractional

open Jemalloc Plugins Structures

/-! ## The split -/

/-- The product is kept modulo `2^52`; half a unit is added before the last 20 bits are cut off. -/
theorem fastSize_eq (size f : Nat) :
    fastSize size f = (size * f % 2 ^ 52 + 2 ^ 19) / 2 ^ 20 := by
  have hwrap : wrap64 (wrap64 (size <<< PAGE_SHIFT) * f) = 2 ^ 12 * (size * f % 2 ^ 52) := by
    calc
      wrap64 (wrap64 (size <<< PAGE_SHIFT) * f) = 2 ^ 12 * (size * f) % (2 ^ 12 * 2 ^ 52) := by
        simp only [wrap64, Nat.shiftLeft_eq, PAGE_SHIFT, Nat.mod_mul_mod]
        ring_nf
      _ = 2 ^ 12 * (size * f % 2 ^ 52) := Nat.mul_mod_mul_left _ _ _
  have hshift : wrap64 (wrap64 (size <<< PAGE_SHIFT) * f) >>> (FRACTION_SHIFT + PAGE_SHIFT - 1) =
      size * f % 2 ^ 52 / 2 ^ 19 := by
    rw [hwrap, Nat.shiftRight_eq_div_pow]
    simp only [FRACTION_SHIFT, PAGE_SHIFT]
    omega
  simp only [fastSize, hshift, Nat.shiftRight_eq_div_pow, Nat.and_one_is_mod]
  omega

/-- The part that is split off is never larger than the whole, whether or not the product wraps. -/
theorem fastSize_le {size f : Nat} (hf : f < 2 ^ FRACTION_SHIFT) : fastSize size f ≤ size := by
  have hprod : size * f ≤ size * 2 ^ 20 := Nat.mul_le_mul_left _ (Nat.le_of_lt hf)
  rw [fastSize_eq]
  rcases Nat.lt_or_ge size (2 ^ 32) with hsmall | hlarge
  · have hmod : size * f % 2 ^ 52 ≤ size * f := Nat.mod_le _ _
    omega
  · have hmod : size * f % 2 ^ 52 < 2 ^ 52 := Nat.mod_lt _ (by decide)
    omega

/-! ## The plan -/

def tier (fast : Bool) : Policy :=
  if fast then .fastmask else .slowmask

/-- What `bindAlloc` decides, as sizes with tiers. -/
def plan (P : Settings) (size f : Nat) : List (Nat × Policy) :=
  if f = 0 then [(size, tier P.invert)]
  else if 2 ^ FRACTION_SHIFT ≤ f then [(size, tier !P.invert)]
  else [(fastSize size f, tier !P.invert), (sub64 size (fastSize size f), tier P.invert)]

/-- The ranges of a plan, one behind the other. -/
def layOut (addr : Nat) : List (Nat × Policy) → List (ShamblesChunk × Policy)
  | [] => []
  | x :: xs => (⟨addr, x.1⟩, x.2) :: layOut (wrap64 (addr + x.1)) xs

theorem layOut_chunks (addr : Nat) (xs : List (Nat × Policy)) :
    (layOut addr xs).map Prod.fst = chunkTableOf addr (xs.map Prod.fst) := by
  induction xs generalizing addr with
  | nil => rfl
  | cons x xs ih => simp [layOut, chunkTableOf, ih]

theorem layOut_policies (addr : Nat) (xs : List (Nat × Policy)) :
    (layOut addr xs).map Prod.snd = xs.map Prod.snd := by
  induction xs generalizing addr with
  | nil => rfl
  | cons x xs ih => simp [layOut, ih]

theorem sub64_of_le {x y : Nat} (h : y ≤ x) (hx : x < 2 ^ 64) : sub64 x y = x - y := by
  unfold sub64
  omega

section Plan

variable (P : Settings)

theorem plan_ne_nil (size f : Nat) : plan P size f ≠ [] := by
  unfold plan
  split_ifs <;> simp

theorem plan_length_le (size f : Nat) : (plan P size f).length ≤ 2 := by
  unfold plan
  split_ifs <;> simp

/-- Nothing is lost and nothing is added, for every 64-bit size. -/
theorem plan_size {size : Nat} (hsize : size < 2 ^ 64) (f : Nat) :
    ((plan P size f).map Prod.fst).sum = size := by
  unfold plan
  split_ifs with hzero hone
  · simp
  · simp
  · have hle : fastSize size f ≤ size := fastSize_le (not_le.1 hone)
    simp [sub64_of_le hle hsize, hle]

end Plan

theorem plan_tiles (P : Settings) {addr size : Nat} (hend : addr + size < 2 ^ 64) (f : Nat) :
    Tiles addr ((layOut addr (plan P size f)).map Prod.fst) := by
  have hsum := plan_size P (show size < 2 ^ 64 by omega) f
  rw [layOut_chunks]
  exact chunkTableOf_tiles (by rw [hsum]; exact hend)

/-! ## Both builds carry out the plan -/

section Builds

variable (P : Settings) {g : Geometry}

/-- The state of the logging build behind a placement by the plan `xs`. -/
structure Placed (s : LoggingState g) (call : Call) (xs : List (Nat × Policy))
    (s' : LoggingState g) : Prop where
  current : s'.current = s.current
  tree : s'.tree = (s.addRegionChunks call (xs.map Prod.fst)).2.tree
  trace : ∃ es, s'.trace = s.trace ++ [es] ∧ bindings es = layOut call.event.outPtr xs
  marked : ∀ i x, xs[i]? = some x → (s'.privData call.output i ≠ 0 ↔ x.2 = .fastmask)
  others : ∀ p, p ≠ call.output → s'.privData p = s.privData p

def mark (fast : Bool) : Nat :=
  if fast then 1 else 0

def bindAs (fast : Bool) (chunk : ShamblesChunk) : List Effect :=
  if fast then bindFastAlloc chunk else bindSlowAlloc chunk

theorem bindings_bindAs (fast : Bool) (chunk : ShamblesChunk) :
    bindings (bindAs fast chunk) = [(chunk, tier fast)] := by
  cases fast <;> rfl

theorem mark_ne_zero_iff (fast : Bool) : mark fast ≠ 0 ↔ tier fast = .fastmask := by
  cases fast <;> decide

/-- One chunk, all of it on one tier. -/
def wholeLogging (s : LoggingState g) (call : Call) (fast : Bool) : LoggingState g :=
  let r := s.addRegionChunks call [call.event.size]
  (r.2.setPrivData call.output 0 (mark fast)).emit (bindAs fast (chunkAt r.1 0))

/-- Two chunks; `fast` is the tier of the first one. -/
def splitLogging (s : LoggingState g) (call : Call) (size₀ size₁ : Nat) (fast : Bool) :
    LoggingState g :=
  let r := s.addRegionChunks call [size₀, size₁]
  ((r.2.setPrivData call.output 0 (mark fast)).setPrivData call.output 1 (mark !fast)).emit
    (bindAs fast (chunkAt r.1 0) ++ bindAs (!fast) (chunkAt r.1 1))

/-- The six branches are two, up to the tier. -/
theorem placeLogging_eq (s : LoggingState g) (call : Call) (f : Nat) :
    placeLogging P s call f =
      if f = 0 then wholeLogging s call P.invert
      else if 2 ^ FRACTION_SHIFT ≤ f then wholeLogging s call !P.invert
      else splitLogging s call (fastSize call.event.size f)
        (sub64 call.event.size (fastSize call.event.size f)) !P.invert := by
  unfold placeLogging
  cases P.invert with
  | false => rfl
  | true => rfl

theorem wholeLogging_spec (s : LoggingState g) (call : Call) (fast : Bool) :
    Placed s call [(call.event.size, tier fast)] (wholeLogging s call fast) :=
  { current := rfl
    tree := rfl
    trace := ⟨_, rfl, bindings_bindAs fast _⟩
    marked := by
      intro i x hx
      obtain ⟨rfl, rfl⟩ : i = 0 ∧ x = (call.event.size, tier fast) := by
        cases i with
        | zero => simpa [eq_comm] using hx
        | succ i => simp at hx
      simpa [wholeLogging, LoggingState.setPrivData, LoggingState.emit] using mark_ne_zero_iff fast
    others := by
      intro p hp
      simp [wholeLogging, LoggingState.setPrivData, LoggingState.emit,
        LoggingState.addRegionChunks, hp] }

theorem splitLogging_spec (s : LoggingState g) (call : Call) (size₀ size₁ : Nat) (fast : Bool) :
    Placed s call [(size₀, tier fast), (size₁, tier !fast)]
      (splitLogging s call size₀ size₁ fast) :=
  { current := rfl
    tree := rfl
    trace := by
      refine ⟨_, rfl, ?_⟩
      rw [bindings_append, bindings_bindAs, bindings_bindAs]
      rfl
    marked := by
      intro i x hx
      cases i with
      | zero =>
          obtain rfl : x = (size₀, tier fast) := by simpa [eq_comm] using hx
          simpa [splitLogging, LoggingState.setPrivData, LoggingState.emit] using
            mark_ne_zero_iff fast
      | succ i =>
          obtain ⟨rfl, rfl⟩ : i = 0 ∧ x = (size₁, tier !fast) := by
            cases i with
            | zero => simpa [eq_comm] using hx
            | succ i => simp at hx
          simpa [splitLogging, LoggingState.setPrivData, LoggingState.emit] using
            mark_ne_zero_iff !fast
    others := by
      intro p hp
      simp [splitLogging, LoggingState.setPrivData, LoggingState.emit,
        LoggingState.addRegionChunks, hp] }

theorem placeLogging_spec (s : LoggingState g) (call : Call) (f : Nat) :
    Placed s call (plan P call.event.size f) (placeLogging P s call f) := by
  rw [placeLogging_eq]
  unfold plan
  split_ifs with hzero hone
  · exact wholeLogging_spec s call _
  · exact wholeLogging_spec s call _
  · simpa using splitLogging_spec s call (fastSize call.event.size f)
      (sub64 call.event.size (fastSize call.event.size f)) !P.invert

/-- The chunk that is reused: its second start is computed before its second size. -/
theorem placePlain_eq (s : PlainState) (call : Call) (f : Nat) :
    placePlain P s call f =
      if f = 0 then s.emit (bindAs P.invert ⟨call.event.outPtr, call.event.size⟩)
      else if 2 ^ FRACTION_SHIFT ≤ f then
        s.emit (bindAs (!P.invert) ⟨call.event.outPtr, call.event.size⟩)
      else
        s.emit (bindAs (!P.invert) ⟨call.event.outPtr, fastSize call.event.size f⟩ ++
          bindAs P.invert ⟨wrap64 (call.event.outPtr + fastSize call.event.size f),
            sub64 call.event.size (fastSize call.event.size f)⟩) := by
  unfold placePlain
  cases P.invert with
  | false => rfl
  | true => rfl

theorem placePlain_spec (s : PlainState) (call : Call) (f : Nat) :
    (placePlain P s call f).current = s.current ∧
      ∃ es, (placePlain P s call f).trace = s.trace ++ [es] ∧
        bindings es = layOut call.event.outPtr (plan P call.event.size f) := by
  rw [placePlain_eq]
  unfold plan
  split_ifs with hzero hone
  · exact ⟨rfl, _, rfl, by rw [bindings_filter, bindings_bindAs]; rfl⟩
  · exact ⟨rfl, _, rfl, by rw [bindings_filter, bindings_bindAs]; rfl⟩
  · refine ⟨rfl, _, rfl, ?_⟩
    rw [bindings_filter, bindings_append, bindings_bindAs, bindings_bindAs]
    rfl

end Builds

/-! ## Lookup in a region -/

/-- A chunk of the region of a placement is marked as it was bound. -/
theorem Placed.marked_iff {g : Geometry} {s s' : LoggingState g} {call : Call}
    {xs : List (Nat × Policy)} {es : List Effect} (h : Placed s call xs s')
    (hes : bindings es = layOut call.event.outPtr xs)
    (htiles : Tiles call.event.outPtr ((layOut call.event.outPtr xs).map Prod.fst))
    (hsum : (xs.map Prod.fst).sum = call.event.size) {a : Nat} (hle : call.event.outPtr ≤ a)
    (hlt : a < call.event.outPtr + call.event.size) :
    ∃ policy, bindingAt es a = some policy ∧
      (s'.privData call.output
        (chunkIndexNU a (chunkTableOf call.event.outPtr (xs.map Prod.fst))) ≠ 0 ↔
        policy = .fastmask) := by
  have hchunks := layOut_chunks call.event.outPtr xs
  have hsize : ((chunkTableOf call.event.outPtr (xs.map Prod.fst)).map ShamblesChunk.size).sum =
      call.event.size := (chunkTableOf_size _ _).trans hsum
  rcases chunkIndexNU_covers (hchunks ▸ htiles) hle (by rw [hsize]; exact hlt) with
    ⟨c, hc, hcovers⟩
  -- the chunk, its binding and its entry in the plan have the same number
  rw [← hchunks, List.getElem?_map] at hc
  rcases Option.map_eq_some_iff.1 hc with ⟨x, hx, rfl⟩
  rw [hchunks] at hx
  refine ⟨x.2, ?_, ?_⟩
  · exact bindingAt_of_tiles (hes ▸ htiles) (hes ▸ hx) hcovers
  · have hpolicy : (xs.map Prod.snd)[chunkIndexNU a
        (chunkTableOf call.event.outPtr (xs.map Prod.fst))]? = some x.2 := by
      rw [← layOut_policies call.event.outPtr, List.getElem?_map, hx]
      rfl
    rw [List.getElem?_map] at hpolicy
    rcases Option.map_eq_some_iff.1 hpolicy with ⟨y, hy, hyx⟩
    rw [← hyx]
    exact h.marked _ y hy

theorem Placed.regions_eq {g : Geometry} {s s' : LoggingState g} {call : Call}
    {xs : List (Nat × Policy)} (h : Placed s call xs s') :
    s'.tree.regions = (call.output, ⟨call.event.outPtr, chunkTableOf call.event.outPtr
      (xs.map Prod.fst), call.chunksPtr⟩) :: s.tree.regions := by
  rw [h.tree]
  rfl

/-- The live regions behind a placement are the new one and those from before. -/
theorem Placed.region_cases {g : Geometry} {s s' : LoggingState g} {call : Call}
    {xs : List (Nat × Policy)} (h : Placed s call xs s') {p : RegionPtr} {region : ShamblesRegion}
    (hregion : s'.tree.regions.lookup p = some region) :
    (p = call.output ∧ region = ⟨call.event.outPtr,
        chunkTableOf call.event.outPtr (xs.map Prod.fst), call.chunksPtr⟩) ∨
      (p ≠ call.output ∧ s.tree.regions.lookup p = some region) := by
  rw [h.regions_eq, AssocList.lookup_cons_eq] at hregion
  by_cases hp : p = call.output
  · rw [if_pos hp] at hregion
    exact Or.inl ⟨hp, (Option.some.inj hregion).symm⟩
  · rw [if_neg hp] at hregion
    exact Or.inr ⟨hp, hregion⟩

/-- The region map takes a placement as a step of its own. -/
theorem enabled_plan {P : Settings} {g : Geometry} {t : TreeState g} {call : Call}
    (hsize : P.sizeThresshold ≤ call.event.size) (hfresh : t.regions.lookup call.output = none)
    (hend : call.event.outPtr + call.event.size < 2 ^ 64) (f : Nat) :
    TreeState.Enabled P.sizeThresshold 0 t
      (.addRegionChunks call.output call.chunksPtr call.event.outPtr call.event.size
        ((plan P call.event.size f).map Prod.fst)) := by
  have hsum := plan_size P (show call.event.size < 2 ^ 64 by omega) f
  have hlength : ((plan P call.event.size f).map Prod.fst).length ≤ 2 := by
    simpa using plan_length_le P call.event.size f
  exact ⟨hfresh, hsize, Nat.le_of_lt hend, by simpa using plan_ne_nil P call.event.size f, hsum,
    hlength.trans (by decide)⟩

/-- It takes a release as one, too. -/
theorem step_release {g : Geometry} {t : TreeState g} {p : RegionPtr} {region : ShamblesRegion}
    {root : Root g} (sizeThresshold : Nat) (hregion : t.regions.lookup p = some region)
    (hroot : deleteRegion g t.root region = some root) :
    TreeState.Enabled sizeThresshold 0 t (.deleteRegion p) ∧
      TreeState.step 0 t (.deleteRegion p) =
        some ⟨root, t.regions.filter fun r => r.1 ≠ p⟩ := by
  simp [TreeState.Enabled, TreeState.step, hregion, hroot]

/-! ## Steps -/

section Steps

variable {P : Settings} {g : Geometry}

/-- A release leaves the region map as it is, or takes one live region out. -/
def Released (t t' : TreeState g) : Prop :=
  t' = t ∨ ∃ p region root, t.regions.lookup p = some region ∧
    deleteRegion g t.root region = some root ∧ t' = ⟨root, t.regions.filter fun r => r.1 ≠ p⟩

theorem bindAllocLogging_cases {s s' : LoggingState g} {call : Call}
    (h : bindAllocLogging P s call = some s') :
    (P.Large call ∧ ∃ f, P.fractionAt (toInt s.current) = some f ∧
        s' = placeLogging P { s with current := s.current + 1 } call f) ∨
      (¬ P.Large call ∧ ∃ tree, Released s.tree tree ∧
        s' = { s with tree := tree, trace := s.trace ++ [[]] }) := by
  unfold bindAllocLogging at h
  cases htype : call.event.type with
  | alloc =>
      by_cases hsize : P.sizeThresshold ≤ call.event.size
      · simp only [htype, hsize, if_true] at h
        rcases Option.map_eq_some_iff.1 h with ⟨f, hf, rfl⟩
        exact Or.inl ⟨⟨htype, hsize⟩, f, hf, rfl⟩
      · simp only [htype, hsize, if_false] at h
        exact Or.inr ⟨fun hlarge => hsize hlarge.2, s.tree, Or.inl rfl, (Option.some.inj h).symm⟩
  | realloc =>
      simp only [htype] at h
      refine Or.inr ⟨fun hlarge => ?_, s.tree, Or.inl rfl, (Option.some.inj h).symm⟩
      simp [Settings.Large, AllocEvent.Large, htype] at hlarge
  | free =>
      simp only [htype] at h
      rcases Option.map_eq_some_iff.1 h with ⟨s₁, hs₁, rfl⟩
      have hlarge : ¬ P.Large call := by simp [Settings.Large, AllocEvent.Large, htype]
      unfold releaseLogging at hs₁
      cases hfind : getRegion g s.tree.root call.event.inPtr with
      | none =>
          simp only [hfind] at hs₁
          obtain rfl := Option.some.inj hs₁
          exact Or.inr ⟨hlarge, s.tree, Or.inl rfl, rfl⟩
      | some p =>
          simp only [hfind] at hs₁
          cases hregion : s.tree.regions.lookup p with
          | none => simp [hregion] at hs₁
          | some region =>
              simp only [hregion] at hs₁
              rcases Option.map_eq_some_iff.1 hs₁ with ⟨root, hroot, rfl⟩
              exact Or.inr ⟨hlarge, _, Or.inr ⟨p, region, root, hregion, hroot, rfl⟩, rfl⟩

theorem bindAllocPlain_large {t : PlainState} {call : Call} (hlarge : P.Large call) {f : Nat}
    (hf : P.fractionAt (toInt t.current) = some f) :
    bindAllocPlain P t call = some (placePlain P { t with current := t.current + 1 } call f) := by
  have hcond : call.event.type = .alloc ∧ P.sizeThresshold ≤ call.event.size := hlarge
  simp [bindAllocPlain, hcond, hf]

theorem bindAllocPlain_small {t : PlainState} {call : Call} (hlarge : ¬ P.Large call) :
    bindAllocPlain P t call = some { t with trace := t.trace ++ [[]] } := by
  have hcond : ¬ (call.event.type = .alloc ∧ P.sizeThresshold ≤ call.event.size) := hlarge
  rw [bindAllocPlain, if_neg hcond]
  rfl

theorem fractionAt_of_lt (P : Settings) {n : Nat} (hn : n < 2 ^ 31) :
    P.fractionAt (toInt n) = some (P.fractions[n]?.getD 0) := by
  have hint : toInt n = n := toInt_of_le (by unfold INT_MAX; omega)
  by_cases hlen : P.fractions.length ≤ n
  · simp [Settings.fractionAt, hint, hlen]
  · have hlt : n < P.fractions.length := not_le.1 hlen
    have hentry : P.fractions[n]? = some P.fractions[n] := List.getElem?_eq_getElem hlt
    simp [Settings.fractionAt, hint, hlen, hentry]

/-! ## Runs -/

/-- A live region: the call that made it, with its effects `es`, and how its chunks are marked. -/
def Recorded (P : Settings) (calls : List Call) (s : LoggingState g) (p : RegionPtr)
    (region : ShamblesRegion) : Prop :=
  ∃ (i : Nat) (call : Call) (es : List Effect), calls[i]? = some call ∧ P.Large call ∧
    s.trace[i]? = some es ∧ region.start = call.event.outPtr ∧
    region.size = call.event.size ∧
    ∀ a, call.event.outPtr ≤ a → a < call.event.outPtr + call.event.size →
      ∃ policy, bindingAt es a = some policy ∧
        (s.privData p (chunkIndexNU a region.chunks) ≠ 0 ↔ policy = .fastmask)

/-- The bindings of the call number `i` tile its allocation. -/
def Covered (s : LoggingState g) (i : Nat) (call : Call) : Prop :=
  ∃ es, s.trace[i]? = some es ∧ Tiles call.event.outPtr ((bindings es).map Prod.fst) ∧
    (((bindings es).map Prod.fst).map ShamblesChunk.size).sum = call.event.size

structure Inv (P : Settings) (calls : List Call) (s : LoggingState g) : Prop where
  tree : Tracks g (Holds g) s.tree
  length : s.trace.length = calls.length
  current : s.current = P.largeCount calls
  plain : ∃ t, Run (plainBuild P) PlainState.init calls t ∧ t.current = s.current ∧
    t.trace.map bindings = s.trace.map bindings
  covered : ∀ i call, calls[i]? = some call → P.Large call → Covered s i call
  recorded : ∀ p region, s.tree.regions.lookup p = some region → Recorded P calls s p region

/-- What was bound stays in the trace. -/
theorem Covered.mono {s s' : LoggingState g} {i : Nat} {call : Call} {es : List Effect}
    (h : Covered s i call) (htrace : s'.trace = s.trace ++ [es]) : Covered s' i call := by
  rcases h with ⟨fs, hfs, hcovered⟩
  exact ⟨fs, by rw [htrace]; exact getElem?_concat_of_some es hfs, hcovered⟩

theorem Recorded.mono {calls : List Call} {s s' : LoggingState g} {p : RegionPtr}
    {region : ShamblesRegion} {es : List Effect} (h : Recorded P calls s p region) (call : Call)
    (htrace : s'.trace = s.trace ++ [es]) (hpriv : s'.privData p = s.privData p) :
    Recorded P (calls ++ [call]) s' p region := by
  rcases h with ⟨i, call', fs, hi, hlarge, hfs, hstart, hsize, hmarked⟩
  refine ⟨i, call', fs, getElem?_concat_of_some call hi, hlarge, ?_, hstart, hsize, ?_⟩
  · rw [htrace]
    exact getElem?_concat_of_some es hfs
  · rw [hpriv]
    exact hmarked

namespace Inv

variable {calls : List Call} {s : LoggingState g} {call : Call}

theorem init (P : Settings) (g : Geometry) : Inv P [] (LoggingState.init g) :=
  { tree := Tracks.init Holds.empty
    length := rfl
    current := rfl
    plain := ⟨PlainState.init, Run.nil, rfl, rfl⟩
    covered := by simp
    recorded := by simp [LoggingState.init, TreeState.init] }

/-- The plain build makes the same placement. -/
theorem plain_place (h : Inv P calls s) (hfits : P.Fits call) (hlarge : P.Large call) {f : Nat}
    (hf : P.fractionAt (toInt s.current) = some f) {es : List Effect}
    (hes : bindings es = layOut call.event.outPtr (plan P call.event.size f)) :
    ∃ t, Run (plainBuild P) PlainState.init (calls ++ [call]) t ∧ t.current = s.current + 1 ∧
      t.trace.map bindings = (s.trace ++ [es]).map bindings := by
  rcases h.plain with ⟨t, hrun, hcurrent, hbindings⟩
  rcases placePlain_spec P { t with current := t.current + 1 } call f with
    ⟨hcurrent', fs, hfs, hplain⟩
  have hstep := bindAllocPlain_large hlarge (hcurrent ▸ hf)
  refine ⟨_, Run.snoc hrun hfits hstep, ?_, ?_⟩
  · rw [hcurrent', hcurrent]
  · rw [hfs, List.map_append, List.map_append, hbindings]
    simp [hplain, hes]

/-- A large allocation. -/
theorem place (h : Inv P calls s) (hen : (loggingBuild P g).enabled s call)
    (hlarge : P.Large call) {f : Nat} (hf : P.fractionAt (toInt s.current) = some f) :
    Inv P (calls ++ [call]) (placeLogging P { s with current := s.current + 1 } call f) := by
  have hplaced := placeLogging_spec P { s with current := s.current + 1 } call f
  have hend : call.event.outPtr + call.event.size < 2 ^ 64 := hen.1 hlarge
  have htiles := plan_tiles P hend f
  have hsum := plan_size P (show call.event.size < 2 ^ 64 by omega) f
  -- Everything that is needed of the new state is in `hplaced`.
  generalize placeLogging P { s with current := s.current + 1 } call f = s' at hplaced
  have hcurrent : s'.current = s.current + 1 := hplaced.current
  rcases hplaced.trace with ⟨es, htrace, hes⟩
  have htrace' : s'.trace = s.trace ++ [es] := htrace
  refine ⟨?_, ?_, ?_, ?_, ?_, ?_⟩
  · rw [hplaced.tree]
    exact h.tree.next_holds P.thresshold_pos (enabled_plan hlarge.2 (hen.2 hlarge) hend f) rfl
  · simp [htrace', h.length]
  · simp [hcurrent, h.current, P.largeCount_snoc, hlarge]
  · rw [hcurrent, htrace']
    exact h.plain_place hen.1 hlarge hf hes
  · intro i c hi hc
    rcases getElem?_concat_cases hi with hold | ⟨rfl, rfl⟩
    · exact (h.covered i c hold hc).mono htrace'
    · refine ⟨es, by simp [htrace', ← h.length], ?_, ?_⟩
      · rw [hes]
        exact htiles
      · rw [hes, layOut_chunks, chunkTableOf_size, hsum]
  · intro p region hregion
    rcases hplaced.region_cases hregion with ⟨rfl, rfl⟩ | ⟨hp, hold⟩
    · refine ⟨calls.length, call, es, by simp, hlarge, by simp [htrace', ← h.length], rfl, ?_, ?_⟩
      · exact (chunkTableOf_size _ _).trans hsum
      · intro a hle hlt
        exact hplaced.marked_iff hes htiles hsum hle hlt
    · exact (h.recorded p region hold).mono call htrace' (hplaced.others p hp)

/-- Every other call binds nothing; a release may take a region out. -/
theorem other (h : Inv P calls s) (hen : (loggingBuild P g).enabled s call)
    (hlarge : ¬ P.Large call) {tree : TreeState g} (htree : Released s.tree tree) :
    Inv P (calls ++ [call]) { s with tree := tree, trace := s.trace ++ [[]] } := by
  refine ⟨?_, ?_, ?_, ?_, ?_, ?_⟩
  · -- the region map stays, or makes a step of its own
    rcases htree with rfl | ⟨p, region, root, hregion, hroot, rfl⟩
    · exact h.tree
    · rcases step_release P.sizeThresshold hregion hroot with ⟨hlive, hstep⟩
      exact h.tree.next_holds P.thresshold_pos hlive hstep
  · simp [h.length]
  · simp [h.current, P.largeCount_snoc, hlarge]
  · rcases h.plain with ⟨t, hrun, hcurrent, hbindings⟩
    refine ⟨_, Run.snoc hrun hen.1 (bindAllocPlain_small hlarge), hcurrent, ?_⟩
    simp [hbindings]
  · intro i c hi hc
    rcases getElem?_concat_cases hi with hold | ⟨rfl, rfl⟩
    · exact (h.covered i c hold hc).mono rfl
    · exact absurd hc hlarge
  · intro p region hregion
    have hold : s.tree.regions.lookup p = some region := by
      rcases htree with rfl | ⟨q, region', root, -, -, rfl⟩
      · exact hregion
      · have hfilter : (s.tree.regions.filter fun r => r.1 ≠ q).lookup p = some region := hregion
        rw [AssocList.lookup_filter_ne] at hfilter
        split at hfilter
        · simp at hfilter
        · exact hfilter
    exact (h.recorded p region hold).mono call rfl rfl

theorem run (hrun : Run (loggingBuild P g) (LoggingState.init g) calls s) : Inv P calls s := by
  refine Run.invariant (init P g) ?_ hrun
  intro calls s call s' hinv hen hstep
  rcases bindAllocLogging_cases hstep with ⟨hlarge, f, hf, rfl⟩ | ⟨hlarge, tree, htree, rfl⟩
  · exact hinv.place hen hlarge hf
  · exact hinv.other hen hlarge htree

/-- `getRegion` names a live region, and a live region can be deleted. -/
theorem release (h : Inv P calls s) (inPtr : Nat) : ∃ s', releaseLogging s inPtr = some s' := by
  cases hfind : getRegion g s.tree.root inPtr with
  | none => exact ⟨s, by simp [releaseLogging, hfind]⟩
  | some p =>
      have hlive := h.tree.getRegion_live hfind
      rcases Option.ne_none_iff_exists'.1 hlive with ⟨region, hregion⟩
      rcases h.tree.delete Holds.maintained hregion with ⟨root, hroot, -⟩
      simp [releaseLogging, hfind, hregion, hroot]

/-- No call gets stuck as long as the counter is an `int`. -/
theorem progress (h : Inv P calls s) (call : Call)
    (hcount : P.Large call → P.largeCount calls < 2 ^ 31) :
    ∃ s', bindAllocLogging P s call = some s' := by
  unfold bindAllocLogging
  cases htype : call.event.type with
  | alloc =>
      by_cases hsize : P.sizeThresshold ≤ call.event.size
      · have hentry := fractionAt_of_lt P (h.current ▸ hcount ⟨htype, hsize⟩)
        simp [hsize, hentry]
      · simp [hsize]
  | realloc => simp
  | free =>
      rcases h.release call.event.inPtr with ⟨s', hs'⟩
      simp [hs']

end Inv

end Steps

/-! ## Runs of the plain build -/

/-- What the plain build did in the call number `i`. -/
def Carried (P : Settings) (n : Nat) (call : Call) (es : List Effect) : Prop :=
  if P.Large call then
    call.event.outPtr + call.event.size < 2 ^ 64 ∧
      ∃ f, P.fractionAt (toInt n) = some f ∧
        bindings es = layOut call.event.outPtr (plan P call.event.size f)
  else
    bindings es = []

section Plain

variable {P : Settings} {calls : List Call} {t : PlainState}

structure PlainInv (P : Settings) (calls : List Call) (t : PlainState) : Prop where
  length : t.trace.length = calls.length
  current : t.current = P.largeCount calls
  carried : ∀ (i : Nat) (call : Call) (es : List Effect), calls[i]? = some call →
    t.trace[i]? = some es → Carried P (P.largeCount (calls.take i)) call es

/-- One more call, with effects that carry it out. -/
theorem PlainInv.snoc (h : PlainInv P calls t) {call : Call} {t' : PlainState} {es : List Effect}
    (htrace : t'.trace = t.trace ++ [es])
    (hcurrent : t'.current = t.current + if P.Large call then 1 else 0)
    (hcarried : Carried P t.current call es) : PlainInv P (calls ++ [call]) t' := by
  refine ⟨by simp [htrace, h.length], ?_, ?_⟩
  · rw [P.largeCount_snoc, hcurrent, h.current]
  · intro i c fs hc hfs
    rw [htrace] at hfs
    rcases getElem?_concat_cases hc with hold | ⟨rfl, rfl⟩
    · have hlt := (List.getElem?_eq_some_iff.1 hold).1
      rw [List.getElem?_append_left (by rw [h.length]; exact hlt)] at hfs
      rw [List.take_append_of_le_length hlt.le]
      exact h.carried i c fs hold hfs
    · obtain rfl : es = fs := by simpa [← h.length] using hfs
      rw [List.take_left, ← h.current]
      exact hcarried

theorem PlainInv.run (hrun : Run (plainBuild P) PlainState.init calls t) :
    PlainInv P calls t := by
  refine Run.invariant (P := PlainInv P) ⟨rfl, rfl, by simp⟩ ?_ hrun
  intro calls t call t' h hen hstep
  by_cases hlarge : P.Large call
  · have hcond : call.event.type = .alloc ∧ P.sizeThresshold ≤ call.event.size := hlarge
    have hmap : (P.fractionAt (toInt t.current)).map (fun f =>
        placePlain P { t with current := t.current + 1 } call f) = some t' := by
      have hplace : bindAllocPlain P t call = some t' := hstep
      rwa [bindAllocPlain, if_pos hcond] at hplace
    rcases Option.map_eq_some_iff.1 hmap with ⟨f, hf, rfl⟩
    rcases placePlain_spec P { t with current := t.current + 1 } call f with
      ⟨hcurrent, es, htrace, hes⟩
    refine h.snoc htrace (by simp [hcurrent, hlarge]) ?_
    rw [Carried, if_pos hlarge]
    exact ⟨hen hlarge, f, hf, hes⟩
  · have hsmall : bindAllocPlain P t call = some t' := hstep
    rw [bindAllocPlain_small hlarge] at hsmall
    obtain rfl := Option.some.inj hsmall
    refine h.snoc rfl (by simp [hlarge]) ?_
    rw [Carried, if_neg hlarge]
    rfl

end Plain

/-! ## The two builds -/

/-- For every sequence of calls that the logging build has gone through: the plain build issues the
same bindings; those of a large allocation tile it; the chunks of a live region are marked as they
were bound; and the next call goes through. -/
theorem builds_agree (P : Settings) (g : Geometry) {calls : List Call} {s : LoggingState g}
    (hrun : Run (loggingBuild P g) (LoggingState.init g) calls s)
    (hcount : P.largeCount calls < 2 ^ 31) :
    (∃ t, Run (plainBuild P) PlainState.init calls t ∧
        t.trace.map bindings = s.trace.map bindings) ∧
      (∀ i call, calls[i]? = some call → P.Large call → Covered s i call) ∧
      (∀ p region, s.tree.regions.lookup p = some region →
        Recorded P calls s p region ∧
          ∀ a, getRegion g s.tree.root a = some p →
            getChunkInfoNU s.tree a = some (p, chunkIndexNU a region.chunks)) ∧
      ∀ call, ∃ s', bindAllocLogging P s call = some s' := by
  have hinv := Inv.run hrun
  refine ⟨?_, hinv.covered, ?_, fun call => hinv.progress call fun _ => hcount⟩
  · rcases hinv.plain with ⟨t, hplain, -, hbindings⟩
    exact ⟨t, hplain, hbindings⟩
  · intro p region hregion
    refine ⟨hinv.recorded p region hregion, ?_⟩
    intro a ha
    simp [getChunkInfoNU, ha, hregion]

/-- Half of the first allocation, none of the second; the first one is freed again, which deletes its
region in the build that has regions. -/
theorem builds_agree_two_allocations :
    ∃ s, Run (loggingBuild ⟨0x10000, [2 ^ 19], false, by decide, by decide⟩
          (shamblesStructsInit 0x10000 (-1))) (LoggingState.init _)
        [⟨⟨.alloc, 0, 0x28000, 0x10000⟩, 1, 0x800⟩, ⟨⟨.alloc, 0, 0x48000, 0x20000⟩, 2, 0x900⟩,
          ⟨⟨.free, 0x28000, 0, 0⟩, 0, 0⟩] s ∧
      s.trace.map bindings =
        [[(⟨0x28000, 0x8000⟩, .fastmask), (⟨0x30000, 0x8000⟩, .slowmask)],
          [(⟨0x48000, 0x20000⟩, .slowmask)], []] ∧
      s.tree.regions.map Prod.fst = [2] ∧
      ∃ t, Run (plainBuild ⟨0x10000, [2 ^ 19], false, by decide, by decide⟩) PlainState.init
          [⟨⟨.alloc, 0, 0x28000, 0x10000⟩, 1, 0x800⟩, ⟨⟨.alloc, 0, 0x48000, 0x20000⟩, 2, 0x900⟩,
            ⟨⟨.free, 0x28000, 0, 0⟩, 0, 0⟩] t ∧
        t.trace.map bindings = s.trace.map bindings := by
  rcases Run.of_exec (loggingBuild ⟨0x10000, [2 ^ 19], false, by decide, by decide⟩
      (shamblesStructsInit 0x10000 (-1))) (LoggingState.init _)
    [⟨⟨.alloc, 0, 0x28000, 0x10000⟩, 1, 0x800⟩, ⟨⟨.alloc, 0, 0x48000, 0x20000⟩, 2, 0x900⟩,
      ⟨⟨.free, 0x28000, 0, 0⟩, 0, 0⟩] (by decide) with ⟨s, hs, hrun⟩
  have hagree := (builds_agree _ _ hrun (by decide)).1
  obtain rfl := Option.some.inj hs
  exact ⟨_, hrun, by decide, by decide, hagree⟩

end StaticFractional
end Shambles
