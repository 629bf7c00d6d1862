import Shambles.Lib.Runs

/-!
# Poison — the page-table entry that is hidden and shown again

Sampling works by clearing the present bit of one top-level page-table entry, that of
`KROOM_BASE_VA_4`: the next access faults, and the fault handler sets the bit again.  The state has
the entry itself and, as a ghost, the value the rest of the kernel means it to have: nothing (0) or
a populated user entry.

`kroom_poison` is guarded by a test of the entry.  `kroom_unpoison` is not: it sets the present bit
of whatever it finds.
-/

namespace Shambles
namespace Kernel
namespace Poison

/-! ## The four operations, for both architectures -/

inductive Arch
  | x86
  | arm64
  deriving DecidableEq, Repr

/-- `KROOM_BASE_VA_4` -/
def kroomBaseVa4 : Arch → Nat
  | .x86 => 0x7f8000000000
  | .arm64 => 0xff8000000000

/-- `_PAGE_PRESENT`, and the valid bit of arm64. -/
def present : BitVec 64 :=
  1#64

/-- `_PAGE_USER` -/
def user : BitVec 64 :=
  4#64

namespace Arch

def p4dSamplePoison : Arch → BitVec 64 → BitVec 64
  | x86, v => v &&& ~~~present
  | arm64, v => v &&& ~~~1#64

def p4dSampleUnpoison : Arch → BitVec 64 → BitVec 64
  | x86, v => v ||| present
  | arm64, v => v ||| 1#64

/-- `p4d_flags` keeps both bits of the comparison. -/
def p4dSamplePoisoned : Arch → BitVec 64 → Bool
  | x86, v => v &&& (present ||| user) == user
  | arm64, v => v != 0#64 && v &&& 1#64 == 0#64

def p4dSamplePoisonable : Arch → BitVec 64 → Bool
  | x86, v => v &&& (present ||| user) == (present ||| user)
  | arm64, v => v &&& 1#64 != 0#64

/-- A user entry as the rest of the kernel writes it: present, and not by that bit alone. -/
def populated : Arch → BitVec 64 → Bool
  | x86, v => v &&& (present ||| user) == (present ||| user)
  | arm64, v => v &&& present == present && v &&& ~~~present != 0#64

end Arch

section Bits

variable {arch : Arch} {v m : BitVec 64}

theorem poison_eq (arch : Arch) (v : BitVec 64) : arch.p4dSamplePoison v = v &&& ~~~present := by
  cases arch <;> rfl

theorem unpoison_eq (arch : Arch) (v : BitVec 64) : arch.p4dSampleUnpoison v = v ||| present := by
  cases arch <;> rfl

theorem or_eq_of_and_eq (h : v &&& m = m) : v ||| m = v := by
  ext i hi
  have hbit := congrArg (fun w : BitVec 64 => w[i]) h
  simp only [BitVec.getElem_and] at hbit
  cases hv : v[i] <;> cases hm : m[i] <;> simp_all

theorem clear_or (v m : BitVec 64) : (v &&& ~~~m) ||| m = v ||| m := by
  ext i hi
  cases hv : v[i] <;> cases hm : m[i] <;> simp_all

theorem present_of_populated (h : arch.populated v = true) : v &&& present = present := by
  cases arch with
  | x86 =>
      have hboth : v &&& (present ||| user) = present ||| user := by simpa [Arch.populated] using h
      calc
        v &&& present = v &&& ((present ||| user) &&& present) := by rfl
        _ = (v &&& (present ||| user)) &&& present := (BitVec.and_assoc _ _ _).symm
        _ = (present ||| user) &&& present := by rw [hboth]
        _ = present := by rfl
  | arm64 =>
      simp only [Arch.populated, Bool.and_eq_true, beq_iff_eq] at h
      exact h.1

/-- Hiding and showing again. -/
theorem unpoison_poison (h : arch.populated v = true) :
    arch.p4dSampleUnpoison (arch.p4dSamplePoison v) = v := by
  rw [unpoison_eq, poison_eq, clear_or]
  exact or_eq_of_and_eq (present_of_populated h)

theorem unpoison_populated (h : arch.populated v = true) : arch.p4dSampleUnpoison v = v := by
  rw [unpoison_eq]
  exact or_eq_of_and_eq (present_of_populated h)

/-- A hidden entry is not empty: the user bit is still there. -/
theorem poison_ne_zero (h : arch.populated v = true) : arch.p4dSamplePoison v ≠ 0#64 := by
  rw [poison_eq]
  cases arch with
  | x86 =>
      have hboth : v &&& (present ||| user) = present ||| user := by simpa [Arch.populated] using h
      intro hzero
      have huser : user = 0#64 := by
        calc
          user = (present ||| user) &&& (~~~present) := by rfl
          _ = (v &&& (present ||| user)) &&& ~~~present := by rw [hboth]
          _ = (v &&& ~~~present) &&& (present ||| user) := by
                rw [BitVec.and_assoc, BitVec.and_comm (present ||| user), BitVec.and_assoc]
          _ = 0#64 := by rw [hzero, BitVec.zero_and]
      exact absurd huser (by decide)
  | arm64 =>
      simp only [Arch.populated, Bool.and_eq_true, bne_iff_ne] at h
      exact h.2

theorem ne_zero_of_populated (h : arch.populated v = true) : v ≠ 0#64 := by
  rintro rfl
  exact absurd (present_of_populated h) (by decide)

/-- The bit that `kroom_unpoison` sets in an empty entry. -/
theorem unpoison_zero (arch : Arch) : arch.p4dSampleUnpoison 0#64 ≠ 0#64 := by
  cases arch <;> decide

theorem not_poisonable_zero (arch : Arch) : arch.p4dSamplePoisonable 0#64 = false := by
  cases arch <;> decide

/-- A hidden entry is not hidden a second time. -/
theorem not_poisonable_poison (arch : Arch) (v : BitVec 64) :
    arch.p4dSamplePoisonable (arch.p4dSamplePoison v) = false := by
  have hbit : (v &&& ~~~present) &&& present = 0#64 := by
    rw [BitVec.and_assoc]
    exact BitVec.and_zero
  cases arch with
  | x86 =>
      refine beq_eq_false_iff_ne.2 ?_
      intro heq
      have hpresent : present = 0#64 := by
        calc
          present = (present ||| user) &&& present := by rfl
          _ = ((v &&& ~~~present) &&& (present ||| user)) &&& present :=
                congrArg (fun w => w &&& present) heq.symm
          _ = (v &&& ~~~present) &&& present := by
                rw [BitVec.and_assoc]
                rfl
          _ = 0#64 := hbit
      exact absurd hpresent (by decide)
  | arm64 => exact bne_eq_false_iff_eq.2 hbit

end Bits

/-! ## The steps -/

structure State where
  entry : BitVec 64
  /-- Ghost: the value the rest of the kernel means the entry to have. -/
  intended : BitVec 64
  /-- The samples file is open and its timer runs. -/
  active : Bool
  /-- The fault handlers that have found the entry poisoned and not called `kroom_unpoison` yet. -/
  faulting : Nat
  deriving DecidableEq, Repr

def initial : State :=
  ⟨0#64, 0#64, false, 0⟩

inductive Event
  | populate (v : BitVec 64)
  | clear
  /-- The timer; `locked` is the result of `mmap_write_trylock`. -/
  | tick (locked : Bool)
  /-- The test in `__handle_mm_fault`. -/
  | faultCheck
  | faultUnpoison
  | openFile
  | release
  deriving DecidableEq, Repr

def kroomPoison (arch : Arch) (s : State) : State :=
  if arch.p4dSamplePoisonable s.entry then
    { s with entry := arch.p4dSamplePoison s.entry }
  else
    s

def kroomUnpoison (arch : Arch) (s : State) : State :=
  { s with entry := arch.p4dSampleUnpoison s.entry }

def step (arch : Arch) (s : State) : Event → State
  | .populate v => { s with entry := v, intended := v }
  | .clear => { s with entry := 0#64, intended := 0#64 }
  | .tick locked => if locked then kroomPoison arch s else s
  | .faultCheck =>
      if arch.p4dSamplePoisoned s.entry then { s with faulting := s.faulting + 1 } else s
  | .faultUnpoison => { kroomUnpoison arch s with faulting := s.faulting - 1 }
  -- A second open finds a handle and fails.
  | .openFile => { s with active := true }
  -- The timer is cancelled first, so no tick comes after the bit is set.
  | .release => { kroomUnpoison arch s with active := false }

/-- The rest of the kernel populates an empty entry; the timer runs while the file is open. -/
def Enabled (arch : Arch) (s : State) : Event → Prop
  | .populate v => s.intended = 0#64 ∧ arch.populated v = true
  | .tick _ => s.active = true
  | .faultUnpoison => 0 < s.faulting
  | .release => s.active = true
  | _ => True

def system (arch : Arch) : System State Event :=
  { enabled := Enabled arch
    step := fun s e => some (step arch s e) }

/-- `kroom_unpoison` is called only while the entry is populated. -/
def StepOk (s : State) : Event → Prop
  | .faultUnpoison => s.intended ≠ 0#64
  | .release => s.intended ≠ 0#64
  | _ => True

instance (arch : Arch) (s : State) : (e : Event) → Decidable (Enabled arch s e)
  | .populate v => inferInstanceAs (Decidable (s.intended = 0#64 ∧ arch.populated v = true))
  | .tick _ => inferInstanceAs (Decidable (s.active = true))
  | .faultUnpoison => inferInstanceAs (Decidable (0 < s.faulting))
  | .release => inferInstanceAs (Decidable (s.active = true))
  | .clear => isTrue trivial
  | .faultCheck => isTrue trivial
  | .openFile => isTrue trivial

instance (s : State) : (e : Event) → Decidable (StepOk s e)
  | .faultUnpoison => inferInstanceAs (Decidable (s.intended ≠ 0#64))
  | .release => inferInstanceAs (Decidable (s.intended ≠ 0#64))
  | .populate _ => isTrue trivial
  | .clear => isTrue trivial
  | .tick _ => isTrue trivial
  | .faultCheck => isTrue trivial
  | .openFile => isTrue trivial

instance (arch : Arch) (s : State) (e : Event) : Decidable ((system arch).enabled s e) :=
  inferInstanceAs (Decidable (Enabled arch s e))

instance (arch : Arch) (s : State) (e : Event) :
    Decidable (((system arch).restrict StepOk).enabled s e) :=
  inferInstanceAs (Decidable (Enabled arch s e ∧ StepOk s e))

/-! ## What is kept -/

/-- The entry is the intended one, or that with its present bit cleared and nothing else. -/
def Hidden (s : State) : Prop :=
  s.entry = s.intended ∨ s.intended &&& present = present ∧ s.entry = s.intended &&& ~~~present

structure Invariant (arch : Arch) (s : State) : Prop where
  intended : s.intended = 0#64 ∨ arch.populated s.intended = true
  entry : s.entry = s.intended ∨
    arch.populated s.intended = true ∧ s.entry = arch.p4dSamplePoison s.intended
  /-- With the file closed nothing is hidden. -/
  shown : s.active = false → s.entry = s.intended

namespace Invariant

variable {arch : Arch} {s : State} {e : Event}

theorem hidden (h : Invariant arch s) : Hidden s := by
  rcases h.entry with heq | ⟨hpop, hpoison⟩
  · exact Or.inl heq
  · rw [poison_eq] at hpoison
    exact Or.inr ⟨present_of_populated hpop, hpoison⟩

/-- An empty entry is meant to be empty. -/
theorem intended_of_entry (h : Invariant arch s) (hzero : s.entry = 0#64) :
    s.intended = 0#64 := by
  rcases h.entry with heq | ⟨hpop, hpoison⟩
  · exact heq.symm.trans hzero
  · exact absurd (hpoison.symm.trans hzero) (poison_ne_zero hpop)

/-- Setting the present bit of a populated entry shows it. -/
theorem unpoison (h : Invariant arch s) (hne : s.intended ≠ 0#64) :
    arch.p4dSampleUnpoison s.entry = s.intended := by
  have hpop := h.intended.resolve_left hne
  rcases h.entry with heq | ⟨_, hpoison⟩
  · rw [heq]
    exact unpoison_populated hpop
  · rw [hpoison]
    exact unpoison_poison hpop

theorem init (arch : Arch) : Invariant arch initial :=
  ⟨Or.inl rfl, Or.inl rfl, fun _ => rfl⟩

theorem kroomPoison (h : Invariant arch s) (hactive : s.active = true) :
    Invariant arch (kroomPoison arch s) := by
  unfold Poison.kroomPoison
  split
  · rename_i hpoisonable
    -- A poisonable entry is a populated one that is not hidden.
    rcases h.entry with heq | ⟨_, hpoison⟩
    · have hpop : arch.populated s.intended = true := by
        refine h.intended.resolve_left ?_
        intro hzero
        rw [heq, hzero, not_poisonable_zero] at hpoisonable
        cases hpoisonable
      refine ⟨h.intended, Or.inr ⟨hpop, ?_⟩, by simp [hactive]⟩
      show arch.p4dSamplePoison s.entry = _
      rw [heq]
    · rw [hpoison, not_poisonable_poison] at hpoisonable
      cases hpoisonable
  · exact h

/-- Every step that meets the condition keeps the invariant. -/
theorem step (h : Invariant arch s) (hen : Enabled arch s e) (hok : StepOk s e) :
    Invariant arch (step arch s e) := by
  cases e with
  | populate v => exact ⟨Or.inr hen.2, Or.inl rfl, fun _ => rfl⟩
  | clear => exact ⟨Or.inl rfl, Or.inl rfl, fun _ => rfl⟩
  | tick locked =>
      cases locked with
      | true => exact h.kroomPoison hen
      | false => exact h
  | faultCheck =>
      simp only [Poison.step]
      split
      · exact ⟨h.intended, h.entry, h.shown⟩
      · exact h
  | faultUnpoison => exact ⟨h.intended, Or.inl (h.unpoison hok), fun _ => h.unpoison hok⟩
  | openFile => exact ⟨h.intended, h.entry, by simp [Poison.step]⟩
  | release => exact ⟨h.intended, Or.inl (h.unpoison hok), fun _ => h.unpoison hok⟩

theorem run {es : List Event} (h : Run ((system arch).restrict StepOk) initial es s) :
    Invariant arch s := by
  refine Run.invariant_state (init arch) ?_ h
  intro s e s' hs hen hst
  obtain rfl := Option.some.inj hst
  exact hs.step hen.1 hen.2

end Invariant

/-- What a step must not do. -/
structure Keeps (s : State) (e : Event) (s' : State) : Prop where
  hidden : Hidden s'
  released : e = .release → s'.entry = s'.intended
  /-- An empty entry stays empty, unless the rest of the kernel fills it. -/
  none : (∀ v, e ≠ .populate v) → s.entry = 0#64 → s'.entry = 0#64

theorem keeps_of_stepOk {arch : Arch} {s : State} {e : Event} (h : Invariant arch s)
    (hen : Enabled arch s e) (hok : StepOk s e) : Keeps s e (step arch s e) := by
  have hnext := h.step hen hok
  refine ⟨hnext.hidden, ?_, ?_⟩
  · rintro rfl
    exact hnext.shown rfl
  · intro hne hzero
    have hintended := h.intended_of_entry hzero
    cases e with
    | populate v => exact absurd rfl (hne v)
    | clear => rfl
    | tick locked =>
        -- The guard of `kroom_poison` leaves an empty entry alone.
        cases locked with
        | true => simp [step, kroomPoison, hzero, not_poisonable_zero]
        | false => exact hzero
    | faultCheck =>
        simp only [step]
        split <;> exact hzero
    | faultUnpoison => exact absurd hintended hok
    | openFile => exact hzero
    | release => exact absurd hintended hok

/-- As long as `kroom_unpoison` finds the entry populated, the entry is the intended one or that
without its present bit, and the next step keeps it so exactly if it meets the condition too. -/
theorem poison_hides (arch : Arch) {es : List Event} {s : State}
    (h : Run ((system arch).restrict StepOk) initial es s) :
    Hidden s ∧ (s.active = false → s.entry = s.intended) ∧
      ∀ e, Enabled arch s e → (StepOk s e ↔ Keeps s e (step arch s e)) := by
  have hinv := Invariant.run h
  refine ⟨hinv.hidden, hinv.shown, ?_⟩
  intro e hen
  refine ⟨keeps_of_stepOk hinv hen, ?_⟩
  intro hkeeps
  -- The present bit of an empty entry makes it a non-empty one.
  have hset : s.intended = 0#64 → (step arch s e).entry = arch.p4dSampleUnpoison s.entry →
      (∀ v, e ≠ .populate v) → False := by
    intro hzero hentry hne
    have hempty : s.entry = 0#64 := by
      rcases hinv.entry with heq | ⟨hpop, _⟩
      · exact heq.trans hzero
      · exact absurd hzero (ne_zero_of_populated hpop)
    have hbad := hkeeps.none hne hempty
    rw [hentry, hempty] at hbad
    exact unpoison_zero arch hbad
  cases e with
  | faultUnpoison => exact fun hzero => hset hzero rfl (by simp)
  | release => exact fun hzero => hset hzero rfl (by simp)
  | populate v => trivial
  | clear => trivial
  | tick locked => trivial
  | faultCheck => trivial
  | openFile => trivial

/-- A populated entry is sampled once and released while it is hidden. -/
theorem poison_hides_sampled :
    ∃ s, Run ((system .x86).restrict StepOk) initial
        [.openFile, .populate 0x1067, .tick true, .faultCheck, .faultUnpoison, .tick true] s ∧
      s.entry = 0x1066 ∧ s.intended = 0x1067 ∧
      Hidden s ∧ (s.active = false → s.entry = s.intended) ∧
        ∀ e, Enabled .x86 s e → (StepOk s e ↔ Keeps s e (step .x86 s e)) := by
  rcases Run.of_exec ((system .x86).restrict StepOk) initial
    [.openFile, .populate 0x1067, .tick true, .faultCheck, .faultUnpoison, .tick true]
    (by decide) with ⟨s, hs, hrun⟩
  have hhides := poison_hides .x86 hrun
  obtain rfl := Option.some.inj hs
  exact ⟨_, hrun, by decide, by decide, hhides⟩

/-- The file is opened and closed while the entry is empty: the entry now has its present bit set,
on both architectures. -/
theorem release_fills_none :
    (∃ s, Run (system .x86) initial [.openFile, .release] s ∧ s.intended = 0#64 ∧
      s.entry = 1#64 ∧ ¬ Hidden s) ∧
    ∃ s, Run (system .arm64) initial [.openFile, .release] s ∧ s.intended = 0#64 ∧
      s.entry = 1#64 ∧ ¬ Hidden s := by
  refine ⟨?_, ?_⟩
  · rcases Run.of_exec (system .x86) initial [.openFile, .release] (by decide) with ⟨s, hs, hrun⟩
    obtain rfl := Option.some.inj hs
    exact ⟨_, hrun, by decide, by decide, by unfold Hidden; decide⟩
  · rcases Run.of_exec (system .arm64) initial [.openFile, .release] (by decide) with ⟨s, hs, hrun⟩
    obtain rfl := Option.some.inj hs
    exact ⟨_, hrun, by decide, by decide, by unfold Hidden; decide⟩

end Poison
end Kernel
end Shambles
