import Shambles.Lib.Runs

/-!
# HandleLifetime — opens, releases and fault handlers of one `mm`

A fault handler that finds the entry poisoned calls `kroom_unpoison`, reads `mm->kroom_handle` and
works on what it has read until it gives up the handle's mutex.  A release cancels the timer, calls
`kroom_unpoison`, stores NULL in `mm->kroom_handle` and frees the handle.  Each of these is a step of
its own, and nothing is locked across them.

Every open allocates a handle of its own, so a handle is named by the number of its open.
-/

namespace Shambles
namespace Kernel
namespace HandleLifetime

/-- Where an open file is between `sample_open` and the end of `sample_release`. -/
inductive FilePc
  /-- Behind `kmalloc`. -/
  | allocated
  /-- The exchange in `kroom_activate` has stored the handle. -/
  | published
  /-- The timer runs. -/
  | active
  | cancelled
  | unpoisoned
  /-- NULL has been stored. -/
  | cleared
  | freed
  /-- The exchange has found another handle; the open will fail. -/
  | failed
  deriving DecidableEq, Repr

inductive FaultPc
  /-- The entry was not poisoned. -/
  | passed
  | sawPoisoned
  | unpoisoned
  /-- In `kroom_report`, with what it has read from `mm->kroom_handle`. -/
  | reporting (handle : Option Nat)
  | done
  deriving DecidableEq, Repr

structure State where
  /-- `mm->kroom_handle` -/
  handle : Option Nat
  /-- `p4d_sample_poisoned` of the entry. -/
  poisoned : Bool
  files : List FilePc
  faults : List FaultPc
  deriving DecidableEq, Repr

def initial : State :=
  ⟨none, false, [], []⟩

inductive Event
  | openFile
  /-- The next step of `sample_open`, or of `sample_release` once the file is open. -/
  | fileStep (h : Nat)
  /-- The timer of an open file poisons the entry. -/
  | tick (h : Nat)
  /-- The rest of the kernel clears the entry. -/
  | clear
  /-- A page fault: the poisoned test. -/
  | fault
  | faultStep (i : Nat)
  deriving DecidableEq, Repr

def State.setFile (s : State) (h : Nat) (pc : FilePc) : State :=
  { s with files := s.files.set h pc }

def State.setFault (s : State) (i : Nat) (pc : FaultPc) : State :=
  { s with faults := s.faults.set i pc }

def fileStep (s : State) (h : Nat) : FilePc → Option State
  | .allocated =>
      if s.handle = none then
        some { s.setFile h .published with handle := some h }
      else
        some (s.setFile h .failed)
  | .published => some (s.setFile h .active)
  | .active => some (s.setFile h .cancelled)
  | .cancelled => some { s.setFile h .unpoisoned with poisoned := false }
  | .unpoisoned => some { s.setFile h .cleared with handle := none }
  | .cleared => some (s.setFile h .freed)
  | .failed => some (s.setFile h .freed)
  | .freed => none

/-- A report on NULL or on a freed handle has no defined outcome. -/
def faultStep (s : State) (i : Nat) : FaultPc → Option State
  | .sawPoisoned => some { s.setFault i .unpoisoned with poisoned := false }
  | .unpoisoned => some (s.setFault i (.reporting s.handle))
  | .reporting (some h) => if s.files[h]? = some .freed then none else some (s.setFault i .done)
  | _ => none

def step (s : State) : Event → Option State
  | .openFile => some { s with files := s.files ++ [.allocated] }
  | .fileStep h =>
      match s.files[h]? with
      | some pc => fileStep s h pc
      | none => none
  | .tick h => if s.files[h]? = some .active then some { s with poisoned := true } else none
  | .clear => some { s with poisoned := false }
  | .fault => some { s with faults := s.faults ++ [if s.poisoned then .sawPoisoned else .passed] }
  | .faultStep i =>
      match s.faults[i]? with
      | some pc => faultStep s i pc
      | none => none

def system : System State Event :=
  { enabled := fun _ _ => True
    step := step }

/-! ## The condition -/

/-- The handler has seen the entry poisoned and has not read the handle yet. -/
def FaultPc.inFlight : FaultPc → Bool
  | .sawPoisoned => true
  | .unpoisoned => true
  | _ => false

/-- NULL is stored only while no handler is between its test and its read of the handle, and a
handle is freed only while no handler reports with it. -/
def StepOk (s : State) : Event → Prop
  | .fileStep h =>
      (s.files[h]? = some .unpoisoned → ∀ f ∈ s.faults, f.inFlight = false) ∧
        (s.files[h]? = some .cleared → .reporting (some h) ∉ s.faults)
  | _ => True

instance (s : State) : (e : Event) → Decidable (StepOk s e)
  | .fileStep h =>
      inferInstanceAs (Decidable ((s.files[h]? = some .unpoisoned → ∀ f ∈ s.faults,
        f.inFlight = false) ∧ (s.files[h]? = some .cleared → .reporting (some h) ∉ s.faults)))
  | .openFile => isTrue trivial
  | .tick _ => isTrue trivial
  | .clear => isTrue trivial
  | .fault => isTrue trivial
  | .faultStep _ => isTrue trivial

instance (s : State) (e : Event) : Decidable (system.enabled s e) :=
  isTrue trivial

instance (s : State) (e : Event) : Decidable ((system.restrict StepOk).enabled s e) :=
  inferInstanceAs (Decidable (True ∧ StepOk s e))

/-! ## The invariant -/

/-- The file whose handle stands in `mm->kroom_handle`. -/
def FilePc.owns : FilePc → Bool
  | .published | .active | .cancelled | .unpoisoned => true
  | _ => false

/-- The entry may be poisoned on behalf of the file. -/
def FilePc.mayPoison : FilePc → Bool
  | .active | .cancelled => true
  | _ => false

/-- The handle has been published and not freed. -/
def FilePc.readable : FilePc → Bool
  | .published | .active | .cancelled | .unpoisoned | .cleared => true
  | _ => false

structure Invariant (s : State) : Prop where
  current : ∀ h, s.handle = some h ↔ ∃ pc, s.files[h]? = some pc ∧ pc.owns = true
  poisoned : s.poisoned = true → ∃ (h : Nat) (pc : FilePc), s.files[h]? = some pc ∧ pc.mayPoison = true
  inFlight : ∀ f ∈ s.faults, f.inFlight = true → s.handle ≠ none
  reporting : ∀ v, .reporting v ∈ s.faults →
    ∃ (h : Nat) (pc : FilePc), v = some h ∧ s.files[h]? = some pc ∧ pc.readable = true

theorem FilePc.owns_of_mayPoison {pc : FilePc} (h : pc.mayPoison = true) : pc.owns = true := by
  cases pc with
  | active | cancelled => rfl
  | allocated | published | unpoisoned | cleared | freed | failed => cases h

theorem FilePc.readable_of_owns {pc : FilePc} (h : pc.owns = true) : pc.readable = true := by
  cases pc with
  | published | active | cancelled | unpoisoned => rfl
  | allocated | cleared | freed | failed => cases h

theorem files_setFile {s : State} {h : Nat} {old : FilePc} (new : FilePc)
    (hold : s.files[h]? = some old) (k : Nat) :
    (s.setFile h new).files[k]? = if k = h then some new else s.files[k]? := by
  have hlt : h < s.files.length := (List.getElem?_eq_some_iff.1 hold).1
  by_cases hk : k = h
  · simp [State.setFile, hk, hlt]
  · simp [State.setFile, hk, Ne.symm hk]

namespace Invariant

variable {s s' : State} {h : Nat} {old : FilePc}

theorem init : Invariant initial := by
  refine ⟨?_, by simp [initial], by simp [initial], by simp [initial]⟩
  intro h
  simp [initial]

/-- The owner, if any, is the one file in a place to own the handle. -/
theorem owner_eq (hinv : Invariant s) {k : Nat} {pc : FilePc} (hh : s.files[h]? = some old)
    (hown : old.owns = true) (hk : s.files[k]? = some pc) (hpc : pc.owns = true) : k = h := by
  have hfirst := (hinv.current h).2 ⟨old, hh, hown⟩
  have hsecond := (hinv.current k).2 ⟨pc, hk, hpc⟩
  exact Option.some.inj (hsecond.symm.trans hfirst)

/-- A file moves on without storing or clearing the handle. -/
theorem setFile (hinv : Invariant s) (new : FilePc) (poisoned : Bool)
    (hold : s.files[h]? = some old) (howns : new.owns = old.owns) (hpoison : poisoned = true →
      s.poisoned = true ∧ (old.mayPoison = true → new.mayPoison = true))
    (hread : old.readable = true → new.readable = true ∨ .reporting (some h) ∉ s.faults) :
    Invariant { s.setFile h new with poisoned := poisoned } := by
  have hlookup := fun k => files_setFile new hold k
  refine ⟨?_, ?_, hinv.inFlight, ?_⟩
  · intro k
    show s.handle = some k ↔ ∃ pc, (s.setFile h new).files[k]? = some pc ∧ pc.owns = true
    rw [hinv.current k, hlookup]
    by_cases hk : k = h
    · simp [hk, hold, howns]
    · simp [hk]
  · intro htrue
    rcases hpoison htrue with ⟨hwas, hsame⟩
    rcases hinv.poisoned hwas with ⟨k, pc, hget, hpc⟩
    by_cases hk : k = h
    · obtain rfl : old = pc := Option.some.inj (hold.symm.trans (hk ▸ hget))
      exact ⟨h, new, by simpa using hlookup h, hsame hpc⟩
    · exact ⟨k, pc, by simpa [hk, hget] using hlookup k, hpc⟩
  · intro v hv
    rcases hinv.reporting v hv with ⟨k, pc, rfl, hget, hpc⟩
    by_cases hk : k = h
    · subst hk
      obtain rfl : old = pc := Option.some.inj (hold.symm.trans hget)
      have hnew : new.readable = true := (hread hpc).resolve_right (fun hnot => hnot hv)
      exact ⟨k, new, rfl, by simpa using hlookup k, hnew⟩
    · exact ⟨k, pc, rfl, by simpa [hk, hget] using hlookup k, hpc⟩

/-- The exchange in `kroom_activate` finds NULL and stores the handle. -/
theorem publish (hinv : Invariant s) (hold : s.files[h]? = some .allocated)
    (hnone : s.handle = none) :
    Invariant { s.setFile h .published with handle := some h } := by
  have hlookup := fun k => files_setFile .published hold k
  -- Nobody owns the handle before, so nobody may have poisoned the entry.
  have hfree : ∀ (k : Nat) (pc : FilePc), s.files[k]? = some pc → pc.owns ≠ true := by
    intro k pc hget hpc
    have hsome := (hinv.current k).2 ⟨pc, hget, hpc⟩
    simp [hnone] at hsome
  refine ⟨?_, ?_, by simp, ?_⟩
  · intro k
    show some h = some k ↔ ∃ pc, (s.setFile h .published).files[k]? = some pc ∧ pc.owns = true
    rw [hlookup]
    by_cases hk : k = h
    · simp [hk, FilePc.owns]
    · simp only [hk, if_false, Option.some.injEq, Ne.symm hk, false_iff, not_exists, not_and]
      exact hfree k
  · intro htrue
    rcases hinv.poisoned htrue with ⟨k, pc, hget, hpc⟩
    exact absurd (FilePc.owns_of_mayPoison hpc) (hfree k pc hget)
  · intro v hv
    rcases hinv.reporting v hv with ⟨k, pc, rfl, hget, hpc⟩
    have hk : k ≠ h := by
      rintro rfl
      obtain rfl : FilePc.allocated = pc := Option.some.inj (hold.symm.trans hget)
      cases hpc
    exact ⟨k, pc, rfl, by simpa [hk, hget] using hlookup k, hpc⟩

/-- NULL is stored while no handler is about to read the handle. -/
theorem clearHandle (hinv : Invariant s) (hold : s.files[h]? = some .unpoisoned)
    (hquiet : ∀ f ∈ s.faults, f.inFlight = false) :
    Invariant { s.setFile h .cleared with handle := none } := by
  have hlookup := fun k => files_setFile .cleared hold k
  have honly : ∀ (k : Nat) (pc : FilePc), s.files[k]? = some pc → pc.owns = true → k = h :=
    fun k pc hget hpc => hinv.owner_eq hold rfl hget hpc
  refine ⟨?_, ?_, ?_, ?_⟩
  · intro k
    show none = some k ↔ ∃ pc, (s.setFile h .cleared).files[k]? = some pc ∧ pc.owns = true
    rw [hlookup]
    by_cases hk : k = h
    · simp [hk, FilePc.owns]
    · simp only [hk, if_false, reduceCtorEq, false_iff, not_exists, not_and]
      exact fun pc hget hpc => hk (honly k pc hget hpc)
  · intro htrue
    -- The owner has called `kroom_unpoison` and its timer is gone.
    rcases hinv.poisoned htrue with ⟨k, pc, hget, hpc⟩
    obtain rfl := honly k pc hget (FilePc.owns_of_mayPoison hpc)
    obtain rfl : FilePc.unpoisoned = pc := Option.some.inj (hold.symm.trans hget)
    cases hpc
  · intro f hf hflight
    simp [hquiet f hf] at hflight
  · intro v hv
    rcases hinv.reporting v hv with ⟨k, pc, rfl, hget, hpc⟩
    by_cases hk : k = h
    · exact ⟨k, .cleared, rfl, by simpa [hk] using hlookup k, rfl⟩
    · exact ⟨k, pc, rfl, by simpa [hk, hget] using hlookup k, hpc⟩

theorem fileStep (hinv : Invariant s) {pc : FilePc} (hfile : s.files[h]? = some pc)
    (hok : StepOk s (.fileStep h)) (hstep : fileStep s h pc = some s') : Invariant s' := by
  cases pc with
  | allocated =>
      simp only [HandleLifetime.fileStep] at hstep
      split at hstep
      · rename_i hnone
        obtain rfl := Option.some.inj hstep
        exact hinv.publish hfile hnone
      · obtain rfl := Option.some.inj hstep
        exact hinv.setFile .failed s.poisoned hfile rfl (fun hp => ⟨hp, id⟩)
          (by simp [FilePc.readable])
  | published =>
      obtain rfl := Option.some.inj hstep
      exact hinv.setFile .active s.poisoned hfile rfl (fun hp => ⟨hp, fun _ => rfl⟩)
        (fun _ => Or.inl rfl)
  | active =>
      obtain rfl := Option.some.inj hstep
      exact hinv.setFile .cancelled s.poisoned hfile rfl (fun hp => ⟨hp, fun _ => rfl⟩)
        (fun _ => Or.inl rfl)
  | cancelled =>
      obtain rfl := Option.some.inj hstep
      exact hinv.setFile .unpoisoned false hfile rfl (by simp) (fun _ => Or.inl rfl)
  | unpoisoned =>
      obtain rfl := Option.some.inj hstep
      exact hinv.clearHandle hfile (hok.1 hfile)
  | cleared =>
      obtain rfl := Option.some.inj hstep
      exact hinv.setFile .freed s.poisoned hfile rfl (fun hp => ⟨hp, id⟩)
        (fun _ => Or.inr (hok.2 hfile))
  | failed =>
      obtain rfl := Option.some.inj hstep
      exact hinv.setFile .freed s.poisoned hfile rfl (fun hp => ⟨hp, id⟩) (by simp [FilePc.readable])
  | freed => cases hstep

/-- The handlers only change their own places; a handler on its way finds a handle. -/
theorem setFault (hinv : Invariant s) (i : Nat) (pc : FaultPc) (poisoned : Bool)
    (hpoison : poisoned = true → s.poisoned = true) (hflight : pc.inFlight = true → s.handle ≠ none)
    (hreport : ∀ v, pc = .reporting v →
      ∃ (h : Nat) (pc : FilePc), v = some h ∧ s.files[h]? = some pc ∧ pc.readable = true) :
    Invariant { s.setFault i pc with poisoned := poisoned } := by
  refine ⟨hinv.current, fun htrue => hinv.poisoned (hpoison htrue), ?_, ?_⟩
  · intro f hf hin
    rcases List.mem_or_eq_of_mem_set hf with hf | rfl
    · exact hinv.inFlight f hf hin
    · exact hflight hin
  · intro v hv
    rcases List.mem_or_eq_of_mem_set hv with hv | heq
    · exact hinv.reporting v hv
    · exact hreport v heq.symm

theorem faultStep (hinv : Invariant s) {i : Nat} {pc : FaultPc} (hfault : s.faults[i]? = some pc)
    (hstep : faultStep s i pc = some s') : Invariant s' := by
  have hmem : pc ∈ s.faults := List.mem_of_getElem? hfault
  cases pc with
  | sawPoisoned =>
      obtain rfl := Option.some.inj hstep
      exact hinv.setFault i .unpoisoned false (by simp) (fun _ => hinv.inFlight _ hmem rfl) (by simp)
  | unpoisoned =>
      obtain rfl := Option.some.inj hstep
      refine hinv.setFault i (.reporting s.handle) s.poisoned id (by simp [FaultPc.inFlight]) ?_
      -- What is read is the handle of its owner, which is not freed while it owns it.
      intro v hv
      obtain rfl : s.handle = v := by simpa using hv
      rcases Option.ne_none_iff_exists'.1 (hinv.inFlight _ hmem rfl) with ⟨h, hh⟩
      rcases (hinv.current h).1 hh with ⟨pc, hget, hpc⟩
      exact ⟨h, pc, hh, hget, FilePc.readable_of_owns hpc⟩
  | reporting v =>
      cases v with
      | none => cases hstep
      | some h =>
          simp only [HandleLifetime.faultStep] at hstep
          split at hstep
          · cases hstep
          · obtain rfl := Option.some.inj hstep
            exact hinv.setFault i .done s.poisoned id (by simp [FaultPc.inFlight]) (by simp)
  | passed => cases hstep
  | done => cases hstep

theorem openFile (hinv : Invariant s) :
    Invariant { s with files := s.files ++ [.allocated] } := by
  refine ⟨?_, ?_, hinv.inFlight, ?_⟩
  · intro h
    rw [hinv.current h]
    constructor
    · rintro ⟨pc, hget, hpc⟩
      exact ⟨pc, getElem?_concat_of_some _ hget, hpc⟩
    · rintro ⟨pc, hget, hpc⟩
      rcases getElem?_concat_cases hget with hold | ⟨_, rfl⟩
      · exact ⟨pc, hold, hpc⟩
      · -- The new file does not own anything yet.
        cases hpc
  · intro htrue
    rcases hinv.poisoned htrue with ⟨h, pc, hget, hpc⟩
    exact ⟨h, pc, getElem?_concat_of_some _ hget, hpc⟩
  · intro v hv
    rcases hinv.reporting v hv with ⟨h, pc, hvh, hget, hpc⟩
    exact ⟨h, pc, hvh, getElem?_concat_of_some _ hget, hpc⟩

/-- A fault that finds the entry poisoned finds it so on behalf of the current owner. -/
theorem fault (hinv : Invariant s) :
    Invariant { s with faults := s.faults ++ [if s.poisoned then .sawPoisoned else .passed] } := by
  refine ⟨hinv.current, hinv.poisoned, ?_, ?_⟩
  · intro f hf hin
    rcases List.mem_append.1 hf with hf | hf
    · exact hinv.inFlight f hf hin
    · obtain rfl := List.mem_singleton.1 hf
      cases hp : s.poisoned with
      | false => simp [hp, FaultPc.inFlight] at hin
      | true =>
          rcases hinv.poisoned hp with ⟨h, pc, hget, hpc⟩
          have hown := (hinv.current h).2 ⟨pc, hget, FilePc.owns_of_mayPoison hpc⟩
          simp [hown]
  · intro v hv
    rcases List.mem_append.1 hv with hv | hv
    · exact hinv.reporting v hv
    · have heq := List.mem_singleton.1 hv
      split at heq <;> cases heq

theorem step {e : Event} (hinv : Invariant s) (hok : StepOk s e) (hstep : step s e = some s') :
    Invariant s' := by
  cases e with
  | openFile =>
      obtain rfl := Option.some.inj hstep
      exact hinv.openFile
  | fileStep h =>
      simp only [HandleLifetime.step] at hstep
      split at hstep
      · rename_i pc hfile
        exact hinv.fileStep hfile hok hstep
      · cases hstep
  | tick h =>
      simp only [HandleLifetime.step] at hstep
      split at hstep
      · rename_i hactive
        obtain rfl := Option.some.inj hstep
        exact ⟨hinv.current, fun _ => ⟨h, .active, hactive, rfl⟩, hinv.inFlight, hinv.reporting⟩
      · cases hstep
  | clear =>
      obtain rfl := Option.some.inj hstep
      exact ⟨hinv.current, by simp, hinv.inFlight, hinv.reporting⟩
  | fault =>
      obtain rfl := Option.some.inj hstep
      exact hinv.fault
  | faultStep i =>
      simp only [HandleLifetime.step] at hstep
      split at hstep
      · rename_i pc hfault
        exact hinv.faultStep hfault hstep
      · cases hstep

end Invariant

/-! ## Every interleaving -/

/-- A handler inside `kroom_report` has read a handle, and that handle is not freed. -/
def Safe (s : State) : Prop :=
  ∀ v, .reporting v ∈ s.faults →
    ∃ (h : Nat) (pc : FilePc), v = some h ∧ s.files[h]? = some pc ∧ pc ≠ .freed

/-- In every interleaving in which no release stores NULL while a handler is between its test and
its read of the handle, or frees a handle that a handler reports with, all reports are safe. -/
theorem reports_are_safe {es : List Event} {s : State}
    (h : Run (system.restrict StepOk) initial es s) : Safe s := by
  have hinv : Invariant s := by
    refine Run.invariant_state Invariant.init ?_ h
    intro s e s' hs hen hst
    exact hs.step hen.2 hst
  intro v hv
  rcases hinv.reporting v hv with ⟨k, pc, hvk, hget, hpc⟩
  refine ⟨k, pc, hvk, hget, ?_⟩
  rintro rfl
  cases hpc

/-- One sample, and the release waits until the handler has read the handle and reported. -/
theorem reports_are_safe_sampled :
    ∃ s, Run (system.restrict StepOk) initial
        [.openFile, .fileStep 0, .fileStep 0, .tick 0, .fault, .faultStep 0, .fileStep 0, .fileStep 0,
          .faultStep 0, .fileStep 0] s ∧
      s.faults = [.reporting (some 0)] ∧ Safe s := by
  rcases Run.of_exec (system.restrict StepOk) initial
    [.openFile, .fileStep 0, .fileStep 0, .tick 0, .fault, .faultStep 0, .fileStep 0, .fileStep 0,
      .faultStep 0, .fileStep 0] (by decide) with ⟨s, hs, hrun⟩
  have hsafe := reports_are_safe hrun
  obtain rfl := Option.some.inj hs
  exact ⟨_, hrun, by decide, hsafe⟩

/-- The whole release falls between the poisoned test and the read of the handle, which gives NULL;
or it falls behind that read, and the handle is freed before it is locked. -/
theorem reports_are_not_safe :
    (∃ s, Run system initial
        [.openFile, .fileStep 0, .fileStep 0, .tick 0, .fault, .fileStep 0, .fileStep 0, .fileStep 0,
          .fileStep 0, .faultStep 0, .faultStep 0] s ∧
      s.faults = [.reporting none] ∧ ¬ Safe s) ∧
    ∃ s, Run system initial
        [.openFile, .fileStep 0, .fileStep 0, .tick 0, .fault, .faultStep 0, .faultStep 0,
          .fileStep 0, .fileStep 0, .fileStep 0, .fileStep 0] s ∧
      s.faults = [.reporting (some 0)] ∧ s.files = [.freed] ∧ ¬ Safe s := by
  refine ⟨?_, ?_⟩
  · rcases Run.of_exec system initial
      [.openFile, .fileStep 0, .fileStep 0, .tick 0, .fault, .fileStep 0, .fileStep 0, .fileStep 0,
        .fileStep 0, .faultStep 0, .faultStep 0] (by decide) with ⟨s, hs, hrun⟩
    obtain rfl := Option.some.inj hs
    refine ⟨_, hrun, by decide, ?_⟩
    intro hsafe
    rcases hsafe none (by decide) with ⟨h, pc, hv, _⟩
    cases hv
  · rcases Run.of_exec system initial
      [.openFile, .fileStep 0, .fileStep 0, .tick 0, .fault, .faultStep 0, .faultStep 0,
        .fileStep 0, .fileStep 0, .fileStep 0, .fileStep 0] (by decide) with ⟨s, hs, hrun⟩
    obtain rfl := Option.some.inj hs
    refine ⟨_, hrun, by decide, by decide, ?_⟩
    intro hsafe
    rcases hsafe (some 0) (by decide) with ⟨h, pc, hv, hget, hne⟩
    obtain rfl := Option.some.inj hv
    exact hne (Option.some.inj hget).symm

end HandleLifetime
end Kernel
end Shambles
