import Shambles.Kernel.Handover
import Shambles.Kernel.Poison

/-!
# Sampling — from the accesses of the threads to the samples that are read

The threads of one process access memory; every access goes through the top-level page-table entry
of its address, or through a translation that the processor still has.  The timer hides the entry of
`KROOM_BASE_VA_4` and then drops all translations.  An access that finds the entry hidden faults; the
handler tests the entry, shows it again, reports the access and returns, and the access is made once
more.  `Poison` has the entry and `Handover` the reports; here both are parts of one state, together
with the threads, in every interleaving of their steps.

This module has the model and the parts the invariant is made of: when the entry is hidden, what the
steps do to the reports, and that a thread is in `kroom_report` at most once.
-/

namespace Shambles
namespace Kernel
namespace Sampling

open Handover (Sample)
open Poison (Arch kroomBaseVa4 present user)

/-! ## Addresses -/

/-- With four levels, one entry of the top-level table stands for `2 ^ 39` bytes. -/
def pgdIndex (addr : Nat) : Nat :=
  addr / 2 ^ 39 % 512

/-- The address is translated through the entry of `KROOM_BASE_VA_4`. -/
def Sampled (arch : Arch) (addr : Nat) : Prop :=
  pgdIndex addr = pgdIndex (kroomBaseVa4 arch)

instance (arch : Arch) (addr : Nat) : Decidable (Sampled arch addr) :=
  inferInstanceAs (Decidable (_ = _))

/-- Of the addresses a user may have, these are the ones above `KROOM_BASE_VA_4`. -/
theorem sampled_iff {arch : Arch} {addr : Nat} (h : addr < kroomBaseVa4 arch + 2 ^ 39) :
    Sampled arch addr ↔ kroomBaseVa4 arch ≤ addr := by
  cases arch with
  | x86 =>
      simp only [Sampled, pgdIndex, kroomBaseVa4] at h ⊢
      omega
  | arm64 =>
      simp only [Sampled, pgdIndex, kroomBaseVa4] at h ⊢
      omega

/-! ## Threads -/

/-- Where a thread is with its access. -/
inductive Pc
  | running
  /-- About to make the access, for the first time or again. -/
  | access
  /-- In the handler, before the test. -/
  | faulted
  | sawPoisoned
  | unpoisoned
  /-- In `kroom_report`. -/
  | reporting
  deriving DecidableEq, Repr

structure Thread where
  pc : Pc
  /-- The access under way: its address and its instruction. -/
  sample : Sample
  /-- Its processor has a translation through the entry. -/
  cached : Bool
  /-- Ghost: the accesses it has begun. -/
  issued : List Sample
  /-- Ghost: the accesses it has carried out. -/
  carried : List Sample
  /-- Ghost: how often it has called `kroom_report`. -/
  stops : Nat
  deriving DecidableEq, Repr

namespace Thread

def start : Thread :=
  ⟨.running, ⟨0, 0⟩, false, [], [], 0⟩

/-- What the thread has begun and not carried out. -/
def current (th : Thread) : List Sample :=
  if th.pc = .running then [] else [th.sample]

def forget (th : Thread) : Thread :=
  { th with cached := false }

/-- The thread is in the fault handler for an address of the window. -/
def Handling (arch : Arch) (th : Thread) : Prop :=
  th.pc ≠ .running ∧ th.pc ≠ .access ∧ Sampled arch th.sample.addr

instance (arch : Arch) (th : Thread) : Decidable (th.Handling arch) :=
  inferInstanceAs (Decidable (_ ∧ _))

end Thread

structure State where
  page : Poison.State
  handover : Handover.State
  threads : List Thread
  /-- The threads whose reports wait for the mutex, in the order of `handover.pending`. -/
  waiters : List Nat
  /-- The thread whose report is inside the mutex. -/
  owner : Option Nat
  /-- The timer is between `set_p4d` and the end of `flush_tlb_mm`. -/
  flushing : Bool
  /-- Ghost: how often the timer has hidden the entry. -/
  polls : Nat
  /-- Ghost: how often a handler has called `kroom_unpoison`. -/
  unpoisons : Nat
  /-- Ghost: how often the entry has been torn down. -/
  clears : Nat
  deriving DecidableEq, Repr

/-- What `sample_open` leaves behind. -/
def opened : State :=
  { page := { Poison.initial with active := true }
    handover := Handover.activated
    threads := []
    waiters := []
    owner := none
    flushing := false
    polls := 0
    unpoisons := 0
    clears := 0 }

/-- The steps of one thread and its processor. -/
inductive Action
  /-- The program comes to the next access. -/
  | issue (sample : Sample)
  /-- The processor translates the address. -/
  | walk
  /-- The processor faults for a reason further down in the table. -/
  | missing
  /-- The test in `__handle_mm_fault`. -/
  | check
  | unpoison
  | report
  /-- The processor takes up a translation ahead of time, or drops one. -/
  | fill
  | evict
  deriving DecidableEq, Repr

inductive Event
  | spawn
  | thread (t : Nat) (action : Action)
  /-- One of the waiting reports gets the mutex. -/
  | acquire (i : Nat)
  /-- The report inside the mutex takes its next step. -/
  | write
  /-- A step of the thread in `sample_read`. -/
  | reader (e : Handover.Event)
  /-- The timer, up to `set_p4d`; `locked` is the result of `mmap_write_trylock`. -/
  | tick (locked : Bool)
  /-- `flush_tlb_mm` -/
  | flush
  /-- `pud_alloc` fills an empty entry. -/
  | populate (v : BitVec 64)
  /-- The rest of the kernel tears the entry down. -/
  | clear
  deriving DecidableEq, Repr

/-! ## Steps -/

/-- The present bit, which is what the processor looks at. -/
def Visible (page : Poison.State) : Prop :=
  page.entry &&& present = present

instance (page : Poison.State) : Decidable (Visible page) :=
  inferInstanceAs (Decidable (_ = _))

def Hidden (arch : Arch) (page : Poison.State) : Prop :=
  arch.p4dSamplePoisoned page.entry = true

instance (arch : Arch) (page : Poison.State) : Decidable (Hidden arch page) :=
  inferInstanceAs (Decidable (_ = _))

def State.setThread (s : State) (t : Nat) (th : Thread) : State :=
  { s with threads := s.threads.set t th }

def threadStep (arch : Arch) (s : State) (t : Nat) (th : Thread) : Action → Option State
  | .issue sample =>
      if th.pc = .running then
        some (s.setThread t { th with
          pc := .access, sample := sample, issued := th.issued ++ [sample] })
      else
        none
  | .walk =>
      if th.pc = .access then
        if Sampled arch th.sample.addr then
          if th.cached ∨ Visible s.page then
            some (s.setThread t { th with
              pc := .running, cached := true, carried := th.carried ++ [th.sample] })
          else
            some (s.setThread t { th with pc := .faulted })
        else
          some (s.setThread t { th with pc := .running, carried := th.carried ++ [th.sample] })
      else
        none
  | .missing => if th.pc = .access then some (s.setThread t { th with pc := .faulted }) else none
  | .check =>
      if th.pc = .faulted then
        if Sampled arch th.sample.addr then
          -- `pud_alloc` comes before the test.
          if s.page.entry = 0#64 then
            none
          else if Hidden arch s.page then
            some { s.setThread t { th with pc := .sawPoisoned } with
              page := Poison.step arch s.page .faultCheck }
          else
            some (s.setThread t { th with pc := .access })
        else
          -- The fault is handled as any other.
          some (s.setThread t { th with pc := .access })
      else
        none
  | .unpoison =>
      if th.pc = .sawPoisoned then
        some { s.setThread t { th with pc := .unpoisoned } with
          page := Poison.step arch s.page .faultUnpoison
          unpoisons := s.unpoisons + 1 }
      else
        none
  | .report =>
      if th.pc = .unpoisoned then
        (Handover.step s.handover (.report th.sample)).map fun handover =>
          { s.setThread t { th with pc := .reporting, stops := th.stops + 1 } with
            handover := handover
            waiters := s.waiters ++ [t] }
      else
        none
  | .fill =>
      if Visible s.page then some (s.setThread t { th with cached := true }) else none
  | .evict => some (s.setThread t th.forget)

/-- The handler returns `VM_FAULT_NOPAGE`, and the access is made again. -/
def State.resume (s : State) : State :=
  match s.owner with
  | none => s
  | some t =>
      match s.threads[t]? with
      | none => s
      | some th => { s.setThread t { th with pc := .access } with owner := none }

/-- The steps that `sample_read` takes. -/
def isReader : Handover.Event → Bool
  | .report _ | .acquire _ | .write => false
  | _ => true

def step (arch : Arch) (s : State) : Event → Option State
  | .spawn => some { s with threads := s.threads ++ [.start] }
  | .thread t action =>
      match s.threads[t]? with
      | some th => threadStep arch s t th action
      | none => none
  | .acquire i =>
      match Handover.step s.handover (.acquire i), s.waiters[i]? with
      | some handover, some t =>
          some { s with handover := handover, waiters := s.waiters.eraseIdx i, owner := some t }
      | _, _ => none
  | .write =>
      (Handover.step s.handover .write).map fun handover =>
        -- The last step is `mutex_unlock`.
        if handover.lock = none then
          { s with handover := handover }.resume
        else
          { s with handover := handover }
  | .reader e =>
      if isReader e then
        (Handover.step s.handover e).map fun handover => { s with handover := handover }
      else
        none
  | .tick locked =>
      if s.flushing then
        none
      else if locked ∧ arch.p4dSamplePoisonable s.page.entry then
        some { s with
          page := Poison.step arch s.page (.tick true)
          flushing := true
          polls := s.polls + 1 }
      else
        some s
  | .flush =>
      if s.flushing then
        some { s with flushing := false, threads := s.threads.map Thread.forget }
      else
        none
  | .populate v => some { s with page := Poison.step arch s.page (.populate v) }
  | .clear =>
      some { s with
        page := Poison.step arch s.page .clear
        threads := s.threads.map Thread.forget
        clears := s.clears + 1 }

/-- Accesses are to user addresses.  The rest of the kernel fills an empty entry, and tears it down
only with the lock of the mapping held against the handlers that work on it. -/
def Enabled (arch : Arch) (s : State) : Event → Prop
  | .thread _ (.issue sample) => sample.addr < kroomBaseVa4 arch + 2 ^ 39
  | .populate v => s.page.intended = 0#64 ∧ arch.populated v = true
  | .clear => ∀ th ∈ s.threads, ¬ th.Handling arch
  | _ => True

instance (arch : Arch) (s : State) : (e : Event) → Decidable (Enabled arch s e)
  | .thread _ (.issue _) => inferInstanceAs (Decidable (_ < _))
  | .populate _ => inferInstanceAs (Decidable (_ ∧ _))
  | .clear => inferInstanceAs (Decidable (∀ th ∈ s.threads, ¬ th.Handling arch))
  | .thread _ .walk | .thread _ .missing | .thread _ .check | .thread _ .unpoison
  | .thread _ .report | .thread _ .fill | .thread _ .evict
  | .spawn | .acquire _ | .write | .reader _ | .tick _ | .flush => isTrue trivial

def system (arch : Arch) : System State Event :=
  { enabled := Enabled arch
    step := step arch }

instance (arch : Arch) (s : State) (e : Event) : Decidable ((system arch).enabled s e) :=
  inferInstanceAs (Decidable (Enabled arch s e))

/-- Everything a thread can do. -/
theorem threadStep_cases {P : State → Prop} {arch : Arch} {s s' : State} {t : Nat} {th : Thread}
    {action : Action} (hs' : threadStep arch s t th action = some s')
    (issue : ∀ sample, action = .issue sample → th.pc = .running → P (s.setThread t { th with
      pc := .access, sample := sample, issued := th.issued ++ [sample] }))
    (carrySampled : th.pc = .access → th.cached = true ∨ Visible s.page → P (s.setThread t { th with
      pc := .running, cached := true, carried := th.carried ++ [th.sample] }))
    (carry : th.pc = .access → ¬ Sampled arch th.sample.addr → P (s.setThread t { th with
      pc := .running, carried := th.carried ++ [th.sample] }))
    (fault : th.pc = .access → P (s.setThread t { th with pc := .faulted }))
    (saw : th.pc = .faulted → Sampled arch th.sample.addr → Hidden arch s.page →
      P { s.setThread t { th with pc := .sawPoisoned } with
        page := Poison.step arch s.page .faultCheck })
    (retry : th.pc = .faulted → P (s.setThread t { th with pc := .access }))
    (unpoison : action = .unpoison → th.pc = .sawPoisoned →
      P { s.setThread t { th with pc := .unpoisoned } with
        page := Poison.step arch s.page .faultUnpoison
        unpoisons := s.unpoisons + 1 })
    (report : ∀ handover, th.pc = .unpoisoned →
      Handover.step s.handover (.report th.sample) = some handover →
      P { s.setThread t { th with pc := .reporting, stops := th.stops + 1 } with
        handover := handover
        waiters := s.waiters ++ [t] })
    (fill : Visible s.page → P (s.setThread t { th with cached := true }))
    (evict : P (s.setThread t th.forget)) : P s' := by
  cases action with
  | issue sample =>
      simp only [threadStep] at hs'
      split at hs'
      · rename_i hpc
        obtain rfl := Option.some.inj hs'
        exact issue sample rfl hpc
      · cases hs'
  | walk =>
      simp only [threadStep] at hs'
      split at hs'
      · rename_i hpc
        split at hs'
        · split at hs'
          · rename_i hgo
            obtain rfl := Option.some.inj hs'
            exact carrySampled hpc hgo
          · obtain rfl := Option.some.inj hs'
            exact fault hpc
        · rename_i hout
          obtain rfl := Option.some.inj hs'
          exact carry hpc hout
      · cases hs'
  | missing =>
      simp only [threadStep] at hs'
      split at hs'
      · rename_i hpc
        obtain rfl := Option.some.inj hs'
        exact fault hpc
      · cases hs'
  | check =>
      simp only [threadStep] at hs'
      split at hs'
      · rename_i hpc
        split at hs'
        · rename_i hsampled
          split at hs'
          · cases hs'
          · split at hs'
            · rename_i hhidden
              obtain rfl := Option.some.inj hs'
              exact saw hpc hsampled hhidden
            · obtain rfl := Option.some.inj hs'
              exact retry hpc
        · obtain rfl := Option.some.inj hs'
          exact retry hpc
      · cases hs'
  | unpoison =>
      simp only [threadStep] at hs'
      split at hs'
      · rename_i hpc
        obtain rfl := Option.some.inj hs'
        exact unpoison rfl hpc
      · cases hs'
  | report =>
      simp only [threadStep] at hs'
      split at hs'
      · rename_i hpc
        rcases Option.map_eq_some_iff.1 hs' with ⟨handover, hstep, rfl⟩
        exact report handover hpc hstep
      · cases hs'
  | fill =>
      simp only [threadStep] at hs'
      split at hs'
      · rename_i hvisible
        obtain rfl := Option.some.inj hs'
        exact fill hvisible
      · cases hs'
  | evict =>
      obtain rfl := Option.some.inj hs'
      exact evict

/-! ## The entry -/

section Entry

variable {arch : Arch} {v : BitVec 64} {page : Poison.State}

/-- A hidden entry does not have the present bit. -/
theorem not_visible_of_hidden (h : Hidden arch page) : ¬ Visible page := by
  intro hvisible
  cases arch with
  | x86 =>
      have heq : page.entry &&& (present ||| user) = user := beq_iff_eq.1 h
      have hbit : present = 0#64 := by
        calc
          present = page.entry &&& present := hvisible.symm
          _ = (page.entry &&& (present ||| user)) &&& present := by
                rw [BitVec.and_assoc]
                rfl
          _ = user &&& present := by rw [heq]
          _ = 0#64 := by rfl
      exact absurd hbit (by decide)
  | arm64 =>
      have hzero : page.entry &&& 1#64 = 0#64 := by
        simpa [Hidden, Arch.p4dSamplePoisoned] using (Bool.and_eq_true_iff.1 h).2
      exact absurd (hvisible.symm.trans hzero) (by decide)

theorem not_hidden_of_populated (h : arch.populated page.entry = true) : ¬ Hidden arch page :=
  fun hhidden => not_visible_of_hidden hhidden (Poison.present_of_populated h)

theorem not_hidden_of_zero (h : page.entry = 0#64) : ¬ Hidden arch page := by
  rw [Hidden, h]
  cases arch <;> decide

theorem poisoned_poison (h : arch.populated v = true) :
    arch.p4dSamplePoisoned (arch.p4dSamplePoison v) = true := by
  cases arch with
  | x86 =>
      have heq : v &&& (present ||| user) = present ||| user := beq_iff_eq.1 h
      refine beq_iff_eq.2 ?_
      calc
        (v &&& ~~~present) &&& (present ||| user)
            = (v &&& (present ||| user)) &&& ~~~present := by
              rw [BitVec.and_assoc, BitVec.and_assoc, BitVec.and_comm (~~~present)]
        _ = user := by
              rw [heq]
              rfl
  | arm64 =>
      rcases Bool.and_eq_true_iff.1 h with ⟨_, hrest⟩
      have hbit : (v &&& ~~~1#64) &&& 1#64 = 0#64 := by
        rw [BitVec.and_assoc]
        exact BitVec.and_zero
      exact Bool.and_eq_true_iff.2 ⟨hrest, beq_iff_eq.2 hbit⟩

/-- The entry is the intended one, or hidden. -/
theorem hidden_or_eq (h : Poison.Invariant arch page) :
    page.entry = page.intended ∨ Hidden arch page ∧ page.intended ≠ 0#64 := by
  rcases h.entry with heq | ⟨hpop, hpoison⟩
  · exact Or.inl heq
  · refine Or.inr ⟨?_, Poison.ne_zero_of_populated hpop⟩
    rw [Hidden, hpoison]
    exact poisoned_poison hpop

theorem intended_ne_zero (h : Poison.Invariant arch page) (hhidden : Hidden arch page) :
    page.intended ≠ 0#64 := by
  rcases hidden_or_eq h with heq | ⟨_, hne⟩
  · intro hzero
    exact not_hidden_of_zero (heq.trans hzero) hhidden
  · exact hne

theorem not_hidden_of_shown (h : Poison.Invariant arch page) (heq : page.entry = page.intended) :
    ¬ Hidden arch page := by
  rcases h.intended with hzero | hpop
  · exact not_hidden_of_zero (heq.trans hzero)
  · exact not_hidden_of_populated (heq ▸ hpop)

/-- The test in `kroom_poison` finds a populated entry that is not hidden. -/
theorem populated_of_poisonable (h : Poison.Invariant arch page)
    (hpoisonable : arch.p4dSamplePoisonable page.entry = true) :
    arch.populated page.entry = true := by
  rcases h.entry with heq | ⟨_, hpoison⟩
  · rw [heq]
    refine h.intended.resolve_left ?_
    intro hzero
    rw [heq, hzero, Poison.not_poisonable_zero] at hpoisonable
    cases hpoisonable
  · rw [hpoison, Poison.not_poisonable_poison] at hpoisonable
    cases hpoisonable

/-- `kroom_unpoison` on a populated entry. -/
theorem shown_of_unpoison (h : Poison.Invariant arch page) (hne : page.intended ≠ 0#64) :
    Poison.Invariant arch (Poison.step arch page .faultUnpoison) ∧
      ¬ Hidden arch (Poison.step arch page .faultUnpoison) := by
  have heq := h.unpoison hne
  have hinv : Poison.Invariant arch (Poison.step arch page .faultUnpoison) :=
    ⟨h.intended, Or.inl heq, fun _ => heq⟩
  exact ⟨hinv, not_hidden_of_shown hinv heq⟩

end Entry

/-! ## The reports -/

/-- The report inside the mutex. -/
def inside : Option Handover.Holder → List Sample
  | some (.writer _ sample) => [sample]
  | _ => []

/-- All reports that have begun. -/
def reported (h : Handover.State) : List Sample :=
  h.log ++ inside h.lock ++ h.pending

section Reports

variable {h h' : Handover.State}

theorem reported_report {sample : Sample} (hstep : Handover.step h (.report sample) = some h') :
    reported h' = reported h ++ [sample] := by
  obtain rfl := Option.some.inj hstep
  simp [reported]

theorem reported_acquire {i : Nat} (hstep : Handover.step h (.acquire i) = some h') :
    (reported h').Perm (reported h) := by
  simp only [Handover.step] at hstep
  split at hstep
  · rename_i sample hlock hsample
    obtain rfl := Option.some.inj hstep
    rcases List.getElem?_eq_some_iff.1 hsample with ⟨hi, rfl⟩
    simpa [reported, inside, hlock] using
      (List.getElem_cons_eraseIdx_perm hi).append_left h.log
  · cases hstep

theorem reported_write (hstep : Handover.step h .write = some h') :
    (reported h').Perm (reported h) := by
  simp only [Handover.step] at hstep
  split at hstep
  · rename_i stage sample hlock
    obtain rfl := Option.some.inj hstep
    cases stage <;> simp [reported, inside, hlock, Handover.writeStep]
  · cases hstep

theorem reported_reader {e : Handover.Event} (he : isReader e = true)
    (hstep : Handover.step h e = some h') : reported h' = reported h := by
  cases e with
  | report sample => cases he
  | acquire i => cases he
  | write => cases he
  | read size sameMm =>
      simp only [Handover.step] at hstep
      split at hstep
      · obtain rfl := Option.some.inj hstep
        split <;> rfl
      · cases hstep
  | down =>
      simp only [Handover.step] at hstep
      split at hstep
      · obtain rfl := Option.some.inj hstep
        rfl
      · cases hstep
  | interrupt =>
      simp only [Handover.step] at hstep
      split at hstep
      · obtain rfl := Option.some.inj hstep
        rfl
      · cases hstep
  | lockRead =>
      simp only [Handover.step] at hstep
      split at hstep
      · rename_i hlock
        split at hstep
        · obtain rfl := Option.some.inj hstep
          simp [reported, inside, hlock]
        · cases hstep
      · cases hstep
  | copy =>
      simp only [Handover.step] at hstep
      split at hstep
      · rename_i stage hlock
        obtain rfl := Option.some.inj hstep
        cases stage <;> simp [reported, inside, hlock, Handover.copyStep]
      · cases hstep
  | fault =>
      simp only [Handover.step] at hstep
      split at hstep
      · rename_i hlock
        obtain rfl := Option.some.inj hstep
        simp [reported, inside, hlock]
      · rename_i hlock
        obtain rfl := Option.some.inj hstep
        simp [reported, inside, hlock]
      · cases hstep

theorem extend_run {e : Handover.Event}
    (hrun : ∃ es, Run Handover.system Handover.activated es h)
    (hstep : Handover.step h e = some h') :
    ∃ es, Run Handover.system Handover.activated es h' := by
  rcases hrun with ⟨es, hrun⟩
  exact ⟨es ++ [e], hrun.snoc trivial hstep⟩

end Reports

theorem resume_handover (s : State) : s.resume.handover = s.handover := by
  unfold State.resume
  split
  · rfl
  · split <;> rfl

/-- A step is a step of the handover or does not touch it; only the reader begins a read. -/
theorem step_handover {arch : Arch} {s s' : State} {e : Event} (hs' : step arch s e = some s') :
    s'.handover = s.handover ∨
      ∃ d, Handover.step s.handover d = some s'.handover ∧
        ((∀ size sameMm, d ≠ .read size sameMm) ∨ e = .reader d) := by
  cases e with
  | spawn =>
      obtain rfl := Option.some.inj hs'
      exact Or.inl rfl
  | thread t action =>
      simp only [step] at hs'
      split at hs'
      · rename_i th _
        refine threadStep_cases (P := fun s' => s'.handover = s.handover ∨
          ∃ d, Handover.step s.handover d = some s'.handover ∧
            ((∀ size sameMm, d ≠ .read size sameMm) ∨ Event.thread t action = .reader d))
          hs' ?_ ?_ ?_ ?_ ?_ ?_ ?_ ?_ ?_ ?_
        case refine_8 =>
          intro handover _ hstep
          exact Or.inr ⟨.report th.sample, hstep, Or.inl (by simp)⟩
        all_goals
          intros
          exact Or.inl rfl
      · cases hs'
  | acquire i =>
      simp only [step] at hs'
      split at hs'
      · rename_i handover t hstep _
        obtain rfl := Option.some.inj hs'
        exact Or.inr ⟨.acquire i, hstep, Or.inl (by simp)⟩
      · cases hs'
  | write =>
      rcases Option.map_eq_some_iff.1 hs' with ⟨handover, hstep, rfl⟩
      refine Or.inr ⟨.write, ?_, Or.inl (by simp)⟩
      split
      · rw [resume_handover, hstep]
      · exact hstep
  | reader d =>
      simp only [step] at hs'
      split at hs'
      · rcases Option.map_eq_some_iff.1 hs' with ⟨handover, hstep, rfl⟩
        exact Or.inr ⟨d, hstep, Or.inr rfl⟩
      · cases hs'
  | tick locked =>
      simp only [step] at hs'
      split at hs'
      · cases hs'
      · split at hs'
        · obtain rfl := Option.some.inj hs'
          exact Or.inl rfl
        · obtain rfl := Option.some.inj hs'
          exact Or.inl rfl
  | flush =>
      simp only [step] at hs'
      split at hs'
      · obtain rfl := Option.some.inj hs'
        exact Or.inl rfl
      · cases hs'
  | populate v =>
      obtain rfl := Option.some.inj hs'
      exact Or.inl rfl
  | clear =>
      obtain rfl := Option.some.inj hs'
      exact Or.inl rfl

/-! ## The threads in `kroom_report` -/

/-- The threads inside `kroom_report`. -/
def State.queue (s : State) : List Nat :=
  s.owner.toList ++ s.waiters

/-- Every thread is in `kroom_report` at most once, and nowhere else meanwhile. -/
structure Queued (s : State) : Prop where
  nodup : s.queue.Nodup
  reporting : ∀ t ∈ s.queue, ∃ th, s.threads[t]? = some th ∧ th.pc = .reporting

/-- What a thread step does to the queue: nothing, or it adds a thread that comes in. -/
theorem threadStep_queue {arch : Arch} {s s' : State} {t : Nat} {th : Thread} {action : Action}
    (hs' : threadStep arch s t th action = some s') :
    ∃ th', s'.threads = s.threads.set t th' ∧ s'.owner = s.owner ∧
      (s'.waiters = s.waiters ∧ (th.pc = .reporting → th'.pc = .reporting) ∨
        s'.waiters = s.waiters ++ [t] ∧ th.pc ≠ .reporting ∧ th'.pc = .reporting) := by
  have hmove : ∀ {pc : Pc} (th' : Thread), th.pc = pc → pc ≠ .reporting →
      (th.pc = .reporting → th'.pc = .reporting) := by
    intro pc th' hpc hne hreporting
    exact absurd (hpc.symm.trans hreporting) hne
  refine threadStep_cases (P := fun s' => ∃ th', s'.threads = s.threads.set t th' ∧
    s'.owner = s.owner ∧ (s'.waiters = s.waiters ∧ (th.pc = .reporting → th'.pc = .reporting) ∨
      s'.waiters = s.waiters ++ [t] ∧ th.pc ≠ .reporting ∧ th'.pc = .reporting))
    hs' ?_ ?_ ?_ ?_ ?_ ?_ ?_ ?_ ?_ ?_
  · intro sample _ hpc
    exact ⟨_, rfl, rfl, Or.inl ⟨rfl, hmove _ hpc (by simp)⟩⟩
  · intro hpc _
    exact ⟨_, rfl, rfl, Or.inl ⟨rfl, hmove _ hpc (by simp)⟩⟩
  · intro hpc _
    exact ⟨_, rfl, rfl, Or.inl ⟨rfl, hmove _ hpc (by simp)⟩⟩
  · intro hpc
    exact ⟨_, rfl, rfl, Or.inl ⟨rfl, hmove _ hpc (by simp)⟩⟩
  · intro hpc _ _
    exact ⟨_, rfl, rfl, Or.inl ⟨rfl, hmove _ hpc (by simp)⟩⟩
  · intro hpc
    exact ⟨_, rfl, rfl, Or.inl ⟨rfl, hmove _ hpc (by simp)⟩⟩
  · intro _ hpc
    exact ⟨_, rfl, rfl, Or.inl ⟨rfl, hmove _ hpc (by simp)⟩⟩
  · intro handover hpc _
    exact ⟨_, rfl, rfl, Or.inr ⟨rfl, by simp [hpc], rfl⟩⟩
  · intro _
    exact ⟨_, rfl, rfl, Or.inl ⟨rfl, id⟩⟩
  · exact ⟨_, rfl, rfl, Or.inl ⟨rfl, id⟩⟩

namespace Queued

variable {arch : Arch} {s s' : State} {t : Nat} {th : Thread}

theorem pc_owner (h : Queued s) (ht : t ∈ s.owner) (hth : s.threads[t]? = some th) :
    th.pc = .reporting := by
  rcases h.reporting t (by simp [State.queue, Option.mem_def.1 ht]) with ⟨th', hth', hpc⟩
  obtain rfl := Option.some.inj (hth.symm.trans hth')
  exact hpc

theorem init : Queued opened := by
  refine ⟨List.nodup_nil, ?_⟩
  intro t ht
  cases ht

/-- The threads of the queue stay where they are. -/
theorem keep {queue : List Nat} {threads : List Thread}
    (h : ∀ u ∈ queue, ∃ th, threads[u]? = some th ∧ th.pc = .reporting) (th' : Thread)
    (hkeep : t ∈ queue → th'.pc = .reporting) :
    ∀ u ∈ queue, ∃ th, (threads.set t th')[u]? = some th ∧ th.pc = .reporting := by
  intro u hu
  rcases h u hu with ⟨th, hth, hpc⟩
  by_cases hut : u = t
  · subst hut
    rcases List.getElem?_eq_some_iff.1 hth with ⟨hlt, _⟩
    exact ⟨th', by simp [hlt], hkeep hu⟩
  · exact ⟨th, by simpa [Ne.symm hut] using hth, hpc⟩

theorem thread (h : Queued s) (hth : s.threads[t]? = some th) {action : Action}
    (hs' : threadStep arch s t th action = some s') : Queued s' := by
  rcases threadStep_queue hs' with ⟨th', hthreads, howner, hwaiters | ⟨hwaiters, hnew, hpc'⟩⟩
  · rcases hwaiters with ⟨hwaiters, hpc⟩
    have hqueue : s'.queue = s.queue := by simp [State.queue, howner, hwaiters]
    refine ⟨hqueue ▸ h.nodup, ?_⟩
    rw [hqueue, hthreads]
    refine keep h.reporting th' ?_
    intro ht
    rcases h.reporting t ht with ⟨old, hold, hreporting⟩
    obtain rfl := Option.some.inj (hth.symm.trans hold)
    exact hpc hreporting
  · have hqueue : s'.queue = s.queue ++ [t] := by simp [State.queue, howner, hwaiters]
    have hout : t ∉ s.queue := by
      intro ht
      rcases h.reporting t ht with ⟨old, hold, hreporting⟩
      obtain rfl := Option.some.inj (hth.symm.trans hold)
      exact hnew hreporting
    refine ⟨?_, ?_⟩
    · rw [hqueue]
      exact List.nodup_append.2 ⟨h.nodup, List.nodup_singleton t, by
        intro u hu v hv
        obtain rfl := List.mem_singleton.1 hv
        exact fun heq => hout (heq ▸ hu)⟩
    · rw [hqueue, hthreads]
      intro u hu
      rcases List.mem_append.1 hu with hu | hu
      · exact keep h.reporting th' (fun _ => hpc') u hu
      · obtain rfl := List.mem_singleton.1 hu
        rcases List.getElem?_eq_some_iff.1 hth with ⟨hlt, _⟩
        exact ⟨th', by simp [hlt], hpc'⟩

/-- The thread whose report is complete leaves the queue. -/
theorem resume (h : Queued s) : Queued s.resume := by
  unfold State.resume
  split
  · exact h
  · rename_i t howner
    split
    · exact h
    · rename_i th hth
      have hqueue : s.queue = t :: s.waiters := by simp [State.queue, howner]
      have hnodup := h.nodup
      rw [hqueue, List.nodup_cons] at hnodup
      refine ⟨by simpa [State.queue, State.setThread] using hnodup.2, ?_⟩
      have hwaiters : ∀ u ∈ s.waiters, ∃ th, s.threads[u]? = some th ∧ th.pc = .reporting := by
        intro u hu
        exact h.reporting u (by simp [hqueue, hu])
      simpa [State.queue, State.setThread] using
        keep hwaiters { th with pc := .access } fun ht => absurd ht hnodup.1

/-- No thread of the queue is touched when all of them lose their translations. -/
theorem forget (h : Queued s) :
    ∀ t ∈ s.queue, ∃ th, (s.threads.map Thread.forget)[t]? = some th ∧ th.pc = .reporting := by
  intro t ht
  rcases h.reporting t ht with ⟨th, hth, hpc⟩
  exact ⟨th.forget, by simp [hth], hpc⟩

theorem step (h : Queued s) {e : Event} (hs' : Sampling.step arch s e = some s') : Queued s' := by
  cases e with
  | spawn =>
      obtain rfl := Option.some.inj hs'
      refine ⟨h.nodup, ?_⟩
      intro t ht
      rcases h.reporting t ht with ⟨th, hth, hpc⟩
      exact ⟨th, getElem?_concat_of_some .start hth, hpc⟩
  | thread t action =>
      simp only [Sampling.step] at hs'
      split at hs'
      · rename_i th hth
        exact h.thread hth hs'
      · cases hs'
  | acquire i =>
      simp only [Sampling.step] at hs'
      split at hs'
      · rename_i handover t _ ht
        obtain rfl := Option.some.inj hs'
        rcases List.getElem?_eq_some_iff.1 ht with ⟨hi, rfl⟩
        have hperm := List.getElem_cons_eraseIdx_perm hi
        have hwaiters : s.waiters.Nodup := (List.nodup_append.1 h.nodup).2.1
        refine ⟨hperm.nodup_iff.2 hwaiters, ?_⟩
        intro u hu
        exact h.reporting u (List.mem_append_right _ (hperm.mem_iff.1 hu))
      · cases hs'
  | write =>
      rcases Option.map_eq_some_iff.1 hs' with ⟨handover, _, rfl⟩
      have hnext : Queued { s with handover := handover } := ⟨h.nodup, h.reporting⟩
      split
      · exact hnext.resume
      · exact hnext
  | reader e =>
      simp only [Sampling.step] at hs'
      split at hs'
      · rcases Option.map_eq_some_iff.1 hs' with ⟨handover, _, rfl⟩
        exact ⟨h.nodup, h.reporting⟩
      · cases hs'
  | tick locked =>
      simp only [Sampling.step] at hs'
      split at hs'
      · cases hs'
      · split at hs'
        · obtain rfl := Option.some.inj hs'
          exact ⟨h.nodup, h.reporting⟩
        · obtain rfl := Option.some.inj hs'
          exact h
  | flush =>
      simp only [Sampling.step] at hs'
      split at hs'
      · obtain rfl := Option.some.inj hs'
        exact ⟨h.nodup, h.forget⟩
      · cases hs'
  | populate v =>
      obtain rfl := Option.some.inj hs'
      exact ⟨h.nodup, h.reporting⟩
  | clear =>
      obtain rfl := Option.some.inj hs'
      exact ⟨h.nodup, h.forget⟩

end Queued

end Sampling
end Kernel
end Shambles
