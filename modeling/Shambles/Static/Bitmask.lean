import Shambles.Jemalloc.LogAlloc
import Shambles.Plugins.Config
import Shambles.Plugins.Migration

/-!
# Bitmask — the static plugin

`bindAlloc` of `static.c` binds the allocation number `n` to the slow memory if bit `n` of
`SHAMBLES_SLOW_BITMASK` is set.  The bit is built as `1 << loc`, an `int`: for `n = 31` it is
negative and its sign fills the upper half of the 64-bit mask, and from `n = 32` on the shift is
not defined.

* `selects_iff`: which bits of the bitmap decide about the allocation number `n`.
* `follows_bitmask_iff`: for which sequences of allocations the bitmap is followed.
-/

namespace Shambles
namespace Static

open Jemalloc Plugins Structures

/-! ## The plugin -/

/-- The static variables after `shambles_init`. -/
structure Settings where
  sizeThresshold : Nat
  bitmap : BitVec 64
  deriving DecidableEq, Repr

/-- `shambles_init`; `none` is the call of `abort`. -/
def shamblesInit (m : Machine) (env : Environment) : Option Settings :=
  (shamblesPluginConfigInit m env).map fun config =>
    { sizeThresshold := config.sizeThresshold
      bitmap := BitVec.ofNat 64 ((readULong env "SHAMBLES_SLOW_BITMASK").getD 0) }

structure State where
  cnt : BitVec 32
  /-- The effects of every call of `bindAlloc`. -/
  trace : List (List Effect)
  deriving DecidableEq, Repr

def State.init : State :=
  ⟨0, []⟩

/-- `1 << loc`; a shift by a negative amount or by the width of `int` is not defined. -/
def shiftOne (loc : Int) : Option (BitVec 32) :=
  if 0 ≤ loc ∧ loc < 32 then some (1#32 <<< loc.toNat) else none

def bindTo (slow : Bool) (chunk : ShamblesChunk) : List Effect :=
  if slow then bindSlow chunk else bindFast chunk

def bindAlloc (P : Settings) (s : State) (event : AllocEvent) : Option State :=
  if event.type = .alloc ∧ P.sizeThresshold ≤ event.size then
    -- `loc` is the old value of `cnt`; its bit is extended to the type of `bitmap`
    (shiftOne s.cnt.toInt).map fun bit =>
      { cnt := s.cnt + 1
        trace := s.trace ++
          [bindTo (P.bitmap &&& bit.signExtend 64 ≠ 0) ⟨event.outPtr, event.size⟩] }
  else
    some { s with trace := s.trace ++ [[]] }

def system (P : Settings) : System State AllocEvent :=
  { enabled := fun _ _ => True
    step := bindAlloc P }

instance (P : Settings) (s : State) (event : AllocEvent) :
    Decidable ((system P).enabled s event) :=
  isTrue trivial

/-! ## The tested bit -/

/-- The test of `bindAlloc` for the allocation number `n`. -/
def Selects (bitmap : BitVec 64) (n : Nat) : Prop :=
  bitmap &&& (1#32 <<< n).signExtend 64 ≠ 0

instance (bitmap : BitVec 64) (n : Nat) : Decidable (Selects bitmap n) :=
  inferInstanceAs (Decidable (_ ≠ _))

theorem and_ne_zero_iff {w : Nat} (x y : BitVec w) :
    x &&& y ≠ 0 ↔ ∃ k, x.getLsbD k = true ∧ y.getLsbD k = true := by
  constructor
  · intro hne
    by_contra hnone
    refine hne (BitVec.eq_of_getLsbD_eq ?_)
    intro k _
    by_contra hk
    refine hnone ⟨k, ?_⟩
    simpa using hk
  · rintro ⟨k, hx, hy⟩ hzero
    have hbit : (x &&& y).getLsbD k = true := by simp [hx, hy]
    simp [hzero] at hbit

/-- Bit `n` alone, or from bit 31 on all of them. -/
theorem getLsbD_mask {n : Nat} (hn : n < 32) (k : Nat) :
    ((1#32 <<< n).signExtend 64).getLsbD k = true ↔ k = n ∨ n = 31 ∧ 31 < k ∧ k < 64 := by
  have hone : (1#32 <<< n) = BitVec.twoPow 32 n := rfl
  rw [hone, BitVec.getLsbD_signExtend, BitVec.msb_eq_getLsbD_last, BitVec.getLsbD_twoPow,
    BitVec.getLsbD_twoPow]
  simp only [Bool.and_eq_true, decide_eq_true_eq]
  split
  · simp only [Bool.and_eq_true, decide_eq_true_eq]
    omega
  · simp only [Bool.and_eq_true, decide_eq_true_eq]
    omega

theorem selects_iff (bitmap : BitVec 64) {n : Nat} (hn : n < 32) :
    Selects bitmap n ↔
      bitmap.getLsbD n = true ∨ n = 31 ∧ ∃ k, 32 ≤ k ∧ bitmap.getLsbD k = true := by
  rw [Selects, and_ne_zero_iff]
  simp only [getLsbD_mask hn]
  constructor
  · rintro ⟨k, hk, rfl | ⟨h31, hlt, _⟩⟩
    · exact Or.inl hk
    · exact Or.inr ⟨h31, k, hlt, hk⟩
  · rintro (hbit | ⟨h31, k, hle, hk⟩)
    · exact ⟨n, hbit, Or.inl rfl⟩
    · exact ⟨k, hk, Or.inr ⟨h31, hle, BitVec.lt_of_getLsbD hk⟩⟩

/-- The sign of bit 31 does no harm: it is set itself, or nothing above it is. -/
def SignHarmless (bitmap : BitVec 64) : Prop :=
  bitmap.getLsbD 31 = true ∨ ∀ k, 32 ≤ k → bitmap.getLsbD k = false

theorem selects_iff_bit (bitmap : BitVec 64) {n : Nat} (hn : n < 32) :
    (Selects bitmap n ↔ bitmap.getLsbD n = true) ↔ n < 31 ∨ SignHarmless bitmap := by
  rw [selects_iff bitmap hn]
  constructor
  · intro h
    by_cases h31 : n = 31
    · subst h31
      -- `1 << 31` is negative and selects on every bit from 31 on
      by_cases hbit : bitmap.getLsbD 31 = true
      · exact Or.inr (Or.inl hbit)
      · refine Or.inr (Or.inr ?_)
        intro k hk
        by_contra hset
        exact hbit (h.1 (Or.inr ⟨rfl, k, hk, by simpa using hset⟩))
    · exact Or.inl (by omega)
  · rintro (hlt | hbit | hnone)
    · constructor
      · rintro (hbit | ⟨h31, _⟩)
        · exact hbit
        · omega
      · exact Or.inl
    · constructor
      · rintro (hbit' | ⟨rfl, _⟩)
        · exact hbit'
        · exact hbit
      · exact Or.inl
    · constructor
      · rintro (hbit | ⟨_, k, hk, hset⟩)
        · exact hbit
        · simp [hnone k hk] at hset
      · exact Or.inl

/-! ## Runs -/

/-- Every large allocation is bound as the bit with its number says; there is no bit from 64 on. -/
def FollowsBitmask (P : Settings) (events : List AllocEvent) (s : State) : Prop :=
  ∀ i event, events[i]? = some event → event.Large P.sizeThresshold →
    s.trace[i]? = some
      (bindTo (P.bitmap.getLsbD (largeCount P.sizeThresshold (events.take i))) ⟨event.outPtr, event.size⟩)

theorem bindTo_injective {b c : Bool} {chunk : ShamblesChunk}
    (h : bindTo b chunk = bindTo c chunk) : b = c := by
  cases b <;> cases c <;> simp [bindTo, bindSlow, bindFast] at h ⊢

section Runs

variable {P : Settings} {events : List AllocEvent} {s : State} {event : AllocEvent}

/-- What a run has done: every large allocation is bound by the test of `bindAlloc`. -/
structure Inv (P : Settings) (events : List AllocEvent) (s : State) : Prop where
  length : s.trace.length = events.length
  cnt : s.cnt = BitVec.ofNat 32 (largeCount P.sizeThresshold events)
  bound : largeCount P.sizeThresshold events ≤ 32
  tested : ∀ i event, events[i]? = some event → event.Large P.sizeThresshold →
    s.trace[i]? = some
      (bindTo (Selects P.bitmap (largeCount P.sizeThresshold (events.take i))) ⟨event.outPtr, event.size⟩)

theorem shiftOne_cnt {n : Nat} (hn : n ≤ 32) :
    shiftOne (BitVec.ofNat 32 n).toInt = if n < 32 then some (1#32 <<< n) else none := by
  have hint : (BitVec.ofNat 32 n).toInt = n := by
    rw [BitVec.toInt_eq_toNat_of_lt]
    · simp only [BitVec.toNat_ofNat]
      omega
    · simp only [BitVec.toNat_ofNat]
      omega
  rw [shiftOne, hint]
  by_cases hlt : n < 32
  · rw [if_pos ⟨by omega, by omega⟩, if_pos hlt, Int.toNat_natCast]
  · rw [if_neg (by omega), if_neg hlt]

/-- A call of `bindAlloc` behind `events`: only the 33rd large allocation has no outcome. -/
theorem Inv.bindAlloc_eq (h : Inv P events s) (event : AllocEvent) :
    bindAlloc P s event =
      if event.Large P.sizeThresshold then
        if largeCount P.sizeThresshold events < 32 then
          some ⟨s.cnt + 1, s.trace ++
            [bindTo (Selects P.bitmap (largeCount P.sizeThresshold events)) ⟨event.outPtr, event.size⟩]⟩
        else none
      else some ⟨s.cnt, s.trace ++ [[]]⟩ := by
  by_cases hlarge : event.Large P.sizeThresshold
  · have hcond : event.type = .alloc ∧ P.sizeThresshold ≤ event.size := hlarge
    rw [bindAlloc, if_pos hcond, if_pos hlarge, h.cnt, shiftOne_cnt h.bound]
    by_cases hlt : largeCount P.sizeThresshold events < 32
    · simp only [if_pos hlt]
      rfl
    · simp only [if_neg hlt]
      rfl
  · have hcond : ¬ (event.type = .alloc ∧ P.sizeThresshold ≤ event.size) := hlarge
    rw [bindAlloc, if_neg hcond, if_neg hlarge]

/-- One more call, with its effects. -/
theorem Inv.snoc (h : Inv P events s) {s' : State} {es : List Effect}
    (htrace : s'.trace = s.trace ++ [es])
    (hcnt : s'.cnt = BitVec.ofNat 32 (largeCount P.sizeThresshold (events ++ [event])))
    (hbound : largeCount P.sizeThresshold (events ++ [event]) ≤ 32)
    (hes : event.Large P.sizeThresshold →
      es = bindTo (Selects P.bitmap (largeCount P.sizeThresshold events)) ⟨event.outPtr, event.size⟩) :
    Inv P (events ++ [event]) s' := by
  refine ⟨by simp [htrace, h.length], hcnt, hbound, ?_⟩
  intro i e hi hlarge
  rw [htrace]
  rcases getElem?_concat_cases hi with hold | ⟨rfl, rfl⟩
  · have hlt := (List.getElem?_eq_some_iff.1 hold).1
    rw [List.take_append_of_le_length hlt.le]
    exact getElem?_concat_of_some es (h.tested i e hold hlarge)
  · rw [List.take_left, ← hes hlarge, ← h.length]
    simp

theorem Inv.step (h : Inv P events s) {s' : State} (hstep : bindAlloc P s event = some s') :
    Inv P (events ++ [event]) s' := by
  have hcount := largeCount_snoc P.sizeThresshold events event
  rw [h.bindAlloc_eq event] at hstep
  by_cases hlarge : event.Large P.sizeThresshold
  · rw [if_pos hlarge] at hstep hcount
    by_cases hlt : largeCount P.sizeThresshold events < 32
    · rw [if_pos hlt] at hstep
      obtain rfl := Option.some.inj hstep
      refine h.snoc rfl ?_ (by omega) (fun _ => rfl)
      rw [hcount, h.cnt, BitVec.ofNat_add]
      rfl
    · rw [if_neg hlt] at hstep
      cases hstep
  · rw [if_neg hlarge] at hstep hcount
    obtain rfl := Option.some.inj hstep
    refine h.snoc rfl ?_ ?_ (fun hlarge' => absurd hlarge' hlarge)
    · rw [hcount]
      exact h.cnt
    · rw [hcount]
      exact h.bound

theorem Inv.run (hrun : Run (system P) State.init events s) : Inv P events s := by
  refine Run.invariant (P := Inv P) ⟨rfl, rfl, Nat.zero_le _, by simp⟩ ?_ hrun
  intro events s event s' h _ hstep
  exact h.step hstep

/-- Up to 32 large allocations go through. -/
theorem exists_run (P : Settings) (events : List AllocEvent)
    (hcount : largeCount P.sizeThresshold events ≤ 32) :
    ∃ s, Run (system P) State.init events s := by
  refine Run.exists_of_progress ?_
  intro done event hfront s hrun
  refine ⟨trivial, ?_⟩
  have hle : largeCount P.sizeThresshold (done ++ [event]) ≤ largeCount P.sizeThresshold events :=
    hfront.sublist.countP_le
  rw [largeCount_snoc] at hle
  show ∃ s', bindAlloc P s event = some s'
  rw [(Inv.run hrun).bindAlloc_eq event]
  by_cases hlarge : event.Large P.sizeThresshold
  · rw [if_pos hlarge] at hle
    rw [if_pos hlarge, if_pos (by omega)]
    exact ⟨_, rfl⟩
  · rw [if_neg hlarge]
    exact ⟨_, rfl⟩

/-- A run follows the bitmap exactly if the test finds the right bit every time. -/
theorem Inv.followsBitmask_iff (h : Inv P events s) :
    FollowsBitmask P events s ↔
      ∀ n < largeCount P.sizeThresshold events, Selects P.bitmap n ↔ P.bitmap.getLsbD n = true := by
  constructor
  · intro hfollows n hn
    rcases exists_getElem?_countP_take hn with ⟨i, event, hi, hlarge, hbefore⟩
    have hlarge' : event.Large P.sizeThresshold := of_decide_eq_true hlarge
    have hsame := (h.tested i event hi hlarge').symm.trans (hfollows i event hi hlarge')
    have hbits := bindTo_injective (Option.some.inj hsame)
    have hcount : largeCount P.sizeThresshold (events.take i) = n := hbefore
    rw [hcount] at hbits
    simpa using congrArg (· = true) hbits
  · intro hall i event hi hlarge
    have hlt : largeCount P.sizeThresshold (events.take i) < largeCount P.sizeThresshold events :=
      countP_take_lt hi (decide_eq_true hlarge)
    rw [h.tested i event hi hlarge]
    have hbits : decide (Selects P.bitmap (largeCount P.sizeThresshold (events.take i))) =
        P.bitmap.getLsbD (largeCount P.sizeThresshold (events.take i)) := by
      rw [Bool.eq_iff_iff, decide_eq_true_eq]
      exact hall _ hlt
    rw [hbits]

end Runs

/-! ## The bitmap -/

/-- All shifts are defined and the bitmap is followed exactly as long as there are at most 31 large
allocations, or 32 of which the last is not misled by the sign. -/
theorem follows_bitmask_iff (P : Settings) (events : List AllocEvent) :
    (∃ s, Run (system P) State.init events s ∧ FollowsBitmask P events s) ↔
      largeCount P.sizeThresshold events ≤ 31 ∨
        largeCount P.sizeThresshold events = 32 ∧ SignHarmless P.bitmap := by
  constructor
  · rintro ⟨s, hrun, hfollows⟩
    have hinv := Inv.run hrun
    have hbound := hinv.bound
    by_cases h32 : largeCount P.sizeThresshold events = 32
    · have hlast := (hinv.followsBitmask_iff.1 hfollows) 31 (by omega)
      rcases (selects_iff_bit P.bitmap (by decide)).1 hlast with hlt | hharmless
      · omega
      · exact Or.inr ⟨h32, hharmless⟩
    · exact Or.inl (by omega)
  · intro hcond
    have hbound : largeCount P.sizeThresshold events ≤ 32 := by
      rcases hcond with hle | ⟨heq, _⟩
      · omega
      · omega
    rcases exists_run P events hbound with ⟨s, hrun⟩
    refine ⟨s, hrun, (Inv.run hrun).followsBitmask_iff.2 ?_⟩
    intro n hn
    refine (selects_iff_bit P.bitmap (by omega)).2 ?_
    rcases hcond with hle | ⟨_, hharmless⟩
    · exact Or.inl (by omega)
    · exact Or.inr hharmless

/-- With only bit 32 set the allocation number 31 goes to the slow memory, and the next one shifts
by the width of `int`. -/
theorem bitmask_misread :
    ∃ s,
      Run (system ⟨0x10000, 0x100000000⟩) State.init
        (List.replicate 32 ⟨.alloc, 0, 0x100000, 0x10000⟩) s ∧
      (0x100000000 : BitVec 64).getLsbD 31 = false ∧
      s.trace[31]? = some (bindSlow ⟨0x100000, 0x10000⟩) ∧
      bindAlloc ⟨0x10000, 0x100000000⟩ s ⟨.alloc, 0, 0x100000, 0x10000⟩ = none := by
  rcases Run.of_exec (system ⟨0x10000, 0x100000000⟩) State.init
    (List.replicate 32 ⟨.alloc, 0, 0x100000, 0x10000⟩) (by decide) with ⟨s, hs, hrun⟩
  obtain rfl := Option.some.inj hs
  exact ⟨_, hrun, by decide, by decide, by decide⟩

end Static
end Shambles
