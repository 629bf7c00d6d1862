import Shambles.Lib.Runs

/-!
# Handover — samples from the fault handlers to the reader

One `kroom_handle` with any number of fault handlers in `kroom_report` and one reader in
`sample_read`.  Whoever is inside the mutex is kept in the state together with its place there, so
two threads inside it cannot be written down; outside of it a report only waits for the mutex, and
the reader is idle, waits for the semaphore or has come past it.

The handlers put at most one permit into the semaphore: a report first takes back the permit of an
unread predecessor, and the reader, once inside the mutex, takes a permit that a later report has
added meanwhile.

Ghost state records the reports in the order in which they complete, and for every read which of
them it took.
-/

namespace Shambles
namespace Kernel
namespace Handover

/-- What one report hands over: `addr` and `pc`. -/
structure Sample where
  addr : Nat
  pc : Nat
  deriving DecidableEq, Repr

/-- Where a report is inside the mutex. -/
inductive WriterPc
  | locked
  | tried
  | wroteAddr
  | wrote
  | upped
  deriving DecidableEq, Repr

/-- Where the reader is inside the mutex.  `reports` is the number of reports that were complete
when it copied `addr`. -/
inductive ReaderPc
  | locked
  | tried
  | copiedAddr (reports addr : Nat)
  | copied (reports : Nat) (sample : Sample)
  | faulted
  deriving DecidableEq, Repr

/-- The owner of `handle->lock`. -/
inductive Holder
  | writer (stage : WriterPc) (sample : Sample)
  | reader (stage : ReaderPc)
  deriving DecidableEq, Repr

/-- The reader as seen from outside the mutex. -/
inductive Reading
  | idle
  | waiting
  | downed
  deriving DecidableEq, Repr

structure State where
  waitSem : Nat
  lock : Option Holder
  reading : Reading
  /-- The reports that wait for the mutex. -/
  pending : List Sample
  addr : Nat
  pc : Nat
  /-- Ghost: the completed reports, oldest first. -/
  log : List Sample
  /-- Ghost: how many reports were complete when the reader last discarded duplicates. -/
  taken : Nat
  /-- Ghost: the completed reads, with the number of the report each of them returned. -/
  reads : List (Nat × Sample)
  /-- Ghost: the numbers of the reports lost to reads that ended with `-EFAULT`. -/
  lost : List Nat
  deriving DecidableEq, Repr

/-- What `kroom_activate` leaves behind. -/
def activated : State :=
  { waitSem := 0
    lock := none
    reading := .idle
    pending := []
    addr := 0
    pc := 0
    log := []
    taken := 0
    reads := []
    lost := [] }

inductive Event
  /-- A fault handler calls `kroom_report`. -/
  | report (sample : Sample)
  /-- One of the waiting reports gets the mutex. -/
  | acquire (i : Nat)
  /-- The report inside the mutex takes its next step. -/
  | write
  /-- `sample_read` is called with this size, by a thread of the same `mm` or not. -/
  | read (size : Nat) (sameMm : Bool)
  /-- `down_interruptible` returns with the permit. -/
  | down
  | interrupt
  /-- The reader gets the mutex. -/
  | lockRead
  /-- The reader inside the mutex takes its next step. -/
  | copy
  /-- `copy_to_user` fails. -/
  | fault
  deriving DecidableEq, Repr

/-! ## Steps -/

/-- `kroom_report` behind `mutex_lock`.  `down_trylock` takes a permit if there is one. -/
def writeStep (s : State) (sample : Sample) : WriterPc → State
  | .locked => { s with waitSem := s.waitSem - 1, lock := some (.writer .tried sample) }
  | .tried => { s with addr := sample.addr, lock := some (.writer .wroteAddr sample) }
  | .wroteAddr => { s with pc := sample.pc, lock := some (.writer .wrote sample) }
  | .wrote => { s with waitSem := s.waitSem + 1, lock := some (.writer .upped sample) }
  | .upped => { s with lock := none, log := s.log ++ [sample] }

/-- `sample_read` behind `mutex_lock`. -/
def copyStep (s : State) : ReaderPc → State
  | .locked =>
      { s with waitSem := s.waitSem - 1, taken := s.log.length, lock := some (.reader .tried) }
  | .tried => { s with lock := some (.reader (.copiedAddr s.log.length s.addr)) }
  | .copiedAddr reports addr => { s with lock := some (.reader (.copied reports ⟨addr, s.pc⟩)) }
  | .copied reports sample =>
      { s with lock := none, reading := .idle, reads := s.reads ++ [(reports, sample)] }
  | .faulted => { s with lock := none, reading := .idle, lost := s.lost ++ [s.taken] }

/-- `none` while the thread that would take the step is blocked or elsewhere. -/
def step (s : State) : Event → Option State
  | .report sample => some { s with pending := s.pending ++ [sample] }
  | .acquire i =>
      match s.lock, s.pending[i]? with
      | none, some sample =>
          some { s with lock := some (.writer .locked sample), pending := s.pending.eraseIdx i }
      | _, _ => none
  | .write =>
      match s.lock with
      | some (.writer stage sample) => some (writeStep s sample stage)
      | _ => none
  | .read size sameMm =>
      -- A read of another size or from another process returns at once.
      if s.reading = .idle then
        some (if size = 16 ∧ sameMm then { s with reading := .waiting } else s)
      else
        none
  | .down =>
      if s.reading = .waiting ∧ 0 < s.waitSem then
        some { s with waitSem := s.waitSem - 1, reading := .downed }
      else
        none
  | .interrupt => if s.reading = .waiting then some { s with reading := .idle } else none
  | .lockRead =>
      match s.lock with
      | none => if s.reading = .downed then some { s with lock := some (.reader .locked) } else none
      | some _ => none
  | .copy =>
      match s.lock with
      | some (.reader stage) => some (copyStep s stage)
      | _ => none
  | .fault =>
      match s.lock with
      | some (.reader .tried) => some { s with lock := some (.reader .faulted) }
      | some (.reader (.copiedAddr _ _)) => some { s with lock := some (.reader .faulted) }
      | _ => none

def system : System State Event :=
  { enabled := fun _ _ => True
    step := step }

instance (s : State) (e : Event) : Decidable (system.enabled s e) :=
  isTrue trivial

/-- Everything a step can do. -/
theorem step_cases {P : State → Prop} {s s' : State} {e : Event} (h : step s e = some s')
    (report : ∀ sample, P { s with pending := s.pending ++ [sample] })
    (acquire : ∀ i sample, s.lock = none →
      P { s with lock := some (.writer .locked sample), pending := s.pending.eraseIdx i })
    (write : ∀ stage sample, s.lock = some (.writer stage sample) → P (writeStep s sample stage))
    (reject : P s) (read : s.reading = .idle → P { s with reading := .waiting })
    (down : s.reading = .waiting → 0 < s.waitSem →
      P { s with waitSem := s.waitSem - 1, reading := .downed })
    (interrupt : s.reading = .waiting → P { s with reading := .idle })
    (lockRead : s.lock = none → s.reading = .downed → P { s with lock := some (.reader .locked) })
    (copy : ∀ stage, s.lock = some (.reader stage) → P (copyStep s stage))
    (fault : ∀ stage, s.lock = some (.reader stage) → stage = .tried ∨ (∃ k a, stage = .copiedAddr k a) →
      P { s with lock := some (.reader .faulted) }) : P s' := by
  cases e with
  | report sample =>
      obtain rfl := Option.some.inj h
      exact report sample
  | acquire i =>
      simp only [step] at h
      split at h
      · rename_i hlock _
        obtain rfl := Option.some.inj h
        exact acquire i _ hlock
      · cases h
  | write =>
      simp only [step] at h
      split at h
      · rename_i hlock
        obtain rfl := Option.some.inj h
        exact write _ _ hlock
      · cases h
  | read size sameMm =>
      simp only [step] at h
      split at h
      · rename_i hidle
        obtain rfl := Option.some.inj h
        split
        · exact read hidle
        · exact reject
      · cases h
  | down =>
      simp only [step] at h
      split at h
      · rename_i hdown
        obtain rfl := Option.some.inj h
        exact down hdown.1 hdown.2
      · cases h
  | interrupt =>
      simp only [step] at h
      split at h
      · rename_i hwaiting
        obtain rfl := Option.some.inj h
        exact interrupt hwaiting
      · cases h
  | lockRead =>
      simp only [step] at h
      split at h
      · rename_i hlock
        split at h
        · rename_i hdowned
          obtain rfl := Option.some.inj h
          exact lockRead hlock hdowned
        · cases h
      · cases h
  | copy =>
      simp only [step] at h
      split at h
      · rename_i hlock
        obtain rfl := Option.some.inj h
        exact copy _ hlock
      · cases h
  | fault =>
      simp only [step] at h
      split at h
      · rename_i hlock
        obtain rfl := Option.some.inj h
        exact fault _ hlock (Or.inl rfl)
      · rename_i k a hlock
        obtain rfl := Option.some.inj h
        exact fault _ hlock (Or.inr ⟨k, a, rfl⟩)
      · cases h

/-! ## Permits -/

/-- A report has taken back the permit and not given its own yet. -/
def discarding : Option Holder → Bool
  | some (.writer .tried _) => true
  | some (.writer .wroteAddr _) => true
  | some (.writer .wrote _) => true
  | _ => false

/-- A report has given its permit and is not complete yet. -/
def upped : Option Holder → Bool
  | some (.writer .upped _) => true
  | _ => false

/-- The reader is inside the mutex and has discarded duplicates. -/
def taking : Option Holder → Bool
  | some (.reader .locked) => false
  | some (.reader _) => true
  | _ => false

/-- The reader has come past its `down` and has not discarded duplicates yet. -/
def State.claimed (s : State) : Prop :=
  s.reading = .downed ∧ taking s.lock = false

/-- There is a report the reader has not taken. -/
def State.fresh (s : State) : Prop :=
  s.taken < s.log.length ∨ upped s.lock = true

structure Permits (s : State) : Prop where
  le_one : s.waitSem ≤ 1
  discarding : discarding s.lock = true → s.waitSem = 0
  inside : ∀ stage, s.lock = some (.reader stage) → s.reading = .downed
  taken_le : s.taken ≤ s.log.length
  taking : taking s.lock = true → s.waitSem = 0 ∧ s.taken = s.log.length
  /-- A permit, given or in the reader's hands, stands for a report that has not been taken. -/
  fresh : s.waitSem = 1 ∨ s.claimed → s.fresh
  /-- Such a report has its permit, unless its successor is just taking it back. -/
  woken : s.fresh → s.waitSem = 1 ∨ s.claimed ∨ Handover.discarding s.lock = true

namespace Permits

variable {s s' : State}

theorem init : Permits activated := by
  refine ⟨by decide, by decide, ?_, by decide, by decide, ?_, ?_⟩
  · intro stage h
    cases h
  · simp [State.claimed, activated]
  · simp [State.fresh, activated, upped]

/-- Steps that neither give nor take a permit, nor complete or take a report. -/
theorem congr (h : Permits s) (hsem : s'.waitSem = s.waitSem) (hlog : s'.log = s.log)
    (htaken : s'.taken = s.taken) (hreading : s'.reading = .downed ↔ s.reading = .downed)
    (hdiscarding : Handover.discarding s'.lock = Handover.discarding s.lock)
    (hupped : upped s'.lock = upped s.lock) (htaking : Handover.taking s'.lock = Handover.taking s.lock)
    (hinside : ∀ stage, s'.lock = some (.reader stage) → s.reading = .downed) : Permits s' := by
  have hclaimed : s'.claimed ↔ s.claimed := by
    simp [State.claimed, hreading, htaking]
  have hfresh : s'.fresh ↔ s.fresh := by
    simp [State.fresh, hlog, htaken, hupped]
  refine ⟨?_, ?_, fun stage hlock => hreading.2 (hinside stage hlock), ?_, ?_, ?_, ?_⟩
  · simpa [hsem] using h.le_one
  · simpa [hsem, hdiscarding] using h.discarding
  · simpa [hlog, htaken] using h.taken_le
  · simpa [hsem, hlog, htaken, htaking] using h.taking
  · simpa [hsem, hclaimed, hfresh] using h.fresh
  · simpa [hsem, hclaimed, hfresh, hdiscarding] using h.woken

/-- The reader leaves the mutex with all complete reports taken. -/
theorem leave (h : Permits s) (htaking : Handover.taking s.lock = true)
    (hlock : s'.lock = none) (hreading : s'.reading = .idle) (hsem : s'.waitSem = s.waitSem)
    (hlog : s'.log = s.log) (htaken : s'.taken = s.taken) : Permits s' := by
  rcases h.taking htaking with ⟨hzero, hall⟩
  refine ⟨by omega, fun _ => by omega, by simp [hlock], ?_, by simp [hlock, Handover.taking],
    ?_, ?_⟩
  · simpa [hlog, htaken] using h.taken_le
  · rintro (hone | hclaimed)
    · omega
    · simp [State.claimed, hreading] at hclaimed
  · simp [State.fresh, hlock, hlog, htaken, hall, upped]

/-- A report takes its next step inside the mutex. -/
theorem write {stage : WriterPc} {sample : Sample} (h : Permits s)
    (hlock : s.lock = some (.writer stage sample)) : Permits (writeStep s sample stage) := by
  have hle := h.le_one
  have htaken := h.taken_le
  have htaking : Handover.taking s.lock = false := by simp [hlock, Handover.taking]
  cases stage with
  | locked =>
      -- The permit of an unread predecessor is taken back.
      have hzero : s.waitSem - 1 = 0 := by omega
      refine ⟨hzero.le.trans (by decide), fun _ => hzero, by simp [writeStep], htaken,
        by simp [writeStep, Handover.taking], ?_, fun _ => Or.inr (Or.inr rfl)⟩
      rintro (hone | hclaimed)
      · have hbad : s.waitSem - 1 = 1 := hone
        omega
      · have hold : s.fresh := h.fresh (Or.inr ⟨hclaimed.1, htaking⟩)
        simpa [State.fresh, hlock, upped, writeStep] using hold
  | tried =>
      refine h.congr rfl rfl rfl Iff.rfl ?_ ?_ ?_ (by simp [writeStep])
      all_goals simp [writeStep, hlock, Handover.discarding, upped, Handover.taking]
  | wroteAddr =>
      refine h.congr rfl rfl rfl Iff.rfl ?_ ?_ ?_ (by simp [writeStep])
      all_goals simp [writeStep, hlock, Handover.discarding, upped, Handover.taking]
  | wrote =>
      -- The report gives its own permit, the only one.
      have hone : s.waitSem + 1 = 1 := by
        have hzero := h.discarding (by simp [hlock, Handover.discarding])
        omega
      exact ⟨hone.le, by simp [writeStep, Handover.discarding], by simp [writeStep], htaken,
        by simp [writeStep, Handover.taking], fun _ => Or.inr rfl, fun _ => Or.inl hone⟩
  | upped =>
      -- The report is complete.
      have hlt : s.taken < (s.log ++ [sample]).length := by
        rw [List.length_append, List.length_singleton]
        omega
      refine ⟨hle, by simp [writeStep, Handover.discarding], by simp [writeStep], hlt.le,
        by simp [writeStep, Handover.taking], fun _ => Or.inl hlt, ?_⟩
      intro _
      rcases h.woken (Or.inr (by simp [hlock, upped])) with hone | hclaimed | hdiscard
      · exact Or.inl hone
      · exact Or.inr (Or.inl ⟨hclaimed.1, rfl⟩)
      · simp [hlock, Handover.discarding] at hdiscard

/-- The reader takes its next step inside the mutex. -/
theorem copy {stage : ReaderPc} (h : Permits s) (hlock : s.lock = some (.reader stage)) :
    Permits (copyStep s stage) := by
  have hle := h.le_one
  have hreading := h.inside stage hlock
  cases stage with
  | locked =>
      -- All complete reports are taken, and so is the permit of the last one.
      have hzero : s.waitSem - 1 = 0 := by omega
      refine ⟨hzero.le.trans (by decide), fun _ => hzero, fun _ _ => hreading, le_refl _,
        fun _ => ⟨hzero, rfl⟩, ?_, ?_⟩
      · rintro (hone | hclaimed)
        · have hbad : s.waitSem - 1 = 1 := hone
          omega
        · simp [State.claimed, copyStep, Handover.taking] at hclaimed
      · simp [State.fresh, copyStep, upped]
  | tried =>
      refine h.congr rfl rfl rfl Iff.rfl ?_ ?_ ?_ (fun _ _ => hreading)
      all_goals simp [copyStep, hlock, Handover.discarding, upped, Handover.taking]
  | copiedAddr reports addr =>
      refine h.congr rfl rfl rfl Iff.rfl ?_ ?_ ?_ (fun _ _ => hreading)
      all_goals simp [copyStep, hlock, Handover.discarding, upped, Handover.taking]
  | copied reports sample => exact h.leave (by simp [hlock, Handover.taking]) rfl rfl rfl rfl rfl
  | faulted => exact h.leave (by simp [hlock, Handover.taking]) rfl rfl rfl rfl rfl

theorem down (h : Permits s) (hpos : 0 < s.waitSem) :
    Permits { s with waitSem := s.waitSem - 1, reading := .downed } := by
  have hone : s.waitSem = 1 := by
    have hle := h.le_one
    omega
  have hfresh : s.fresh := h.fresh (Or.inl hone)
  have hnotTaking : Handover.taking s.lock = false := by
    cases htaking : Handover.taking s.lock with
    | false => rfl
    | true =>
        have hzero := (h.taking htaking).1
        omega
  refine ⟨?_, ?_, fun _ _ => rfl, h.taken_le, by simp [hnotTaking], fun _ => hfresh,
    fun _ => Or.inr (Or.inl ⟨rfl, hnotTaking⟩)⟩
  · show s.waitSem - 1 ≤ 1
    omega
  · intro _
    show s.waitSem - 1 = 0
    omega

theorem step {e : Event} (h : Permits s) (hstep : step s e = some s') : Permits s' := by
  refine step_cases hstep ?_ ?_ ?_ h ?_ ?_ ?_ ?_ ?_ ?_
  · intro sample
    exact h.congr rfl rfl rfl Iff.rfl rfl rfl rfl (fun stage hlock => h.inside stage hlock)
  · intro i sample hlock
    refine h.congr rfl rfl rfl Iff.rfl ?_ ?_ ?_ (by simp)
    all_goals simp [hlock, Handover.discarding, upped, Handover.taking]
  · intro stage sample hlock
    exact h.write hlock
  · intro hidle
    refine h.congr rfl rfl rfl (by simp [hidle]) rfl rfl rfl (fun stage hlock => h.inside stage hlock)
  · intro _ hpos
    exact h.down hpos
  · intro hwaiting
    refine h.congr rfl rfl rfl (by simp [hwaiting]) rfl rfl rfl
      (fun stage hlock => h.inside stage hlock)
  · intro hlock hdowned
    refine h.congr rfl rfl rfl Iff.rfl ?_ ?_ ?_ (fun _ _ => hdowned)
    all_goals simp [hlock, Handover.discarding, upped, Handover.taking]
  · intro stage hlock
    exact h.copy hlock
  · intro stage hlock hstage
    refine h.congr rfl rfl rfl Iff.rfl ?_ ?_ ?_ (fun _ _ => h.inside stage hlock)
    all_goals
      rcases hstage with rfl | ⟨k, a, rfl⟩ <;>
        simp [hlock, Handover.discarding, upped, Handover.taking]

end Permits

/-! ## The two fields -/

/-- The fields hold the last complete report. -/
def State.settled (s : State) : Prop :=
  s.log ≠ [] → s.log.getLast? = some ⟨s.addr, s.pc⟩

/-- What the fields and the copies of the reader hold, by the owner of the mutex. -/
def Data (s : State) : Prop :=
  match s.lock with
  | some (.writer .wroteAddr sample) => s.addr = sample.addr
  | some (.writer .wrote sample) => s.addr = sample.addr ∧ s.pc = sample.pc
  | some (.writer .upped sample) => s.addr = sample.addr ∧ s.pc = sample.pc
  | some (.reader (.copiedAddr reports addr)) =>
      s.settled ∧ reports = s.log.length ∧ addr = s.addr
  | some (.reader (.copied reports sample)) =>
      s.settled ∧ reports = s.log.length ∧ sample = ⟨s.addr, s.pc⟩
  | _ => s.settled

namespace Data

variable {s s' : State}

theorem init : Data activated := by
  simp [Data, State.settled, activated]

theorem write {stage : WriterPc} {sample : Sample} (h : Data s)
    (hlock : s.lock = some (.writer stage sample)) : Data (writeStep s sample stage) := by
  cases stage with
  | locked => simpa [Data, hlock, writeStep, State.settled] using h
  | tried => simp [Data, writeStep]
  | wroteAddr => simpa [Data, hlock, writeStep] using h
  | wrote => simpa [Data, hlock, writeStep] using h
  | upped =>
      -- The completed report is the last one, and the fields hold it.
      have hfields : s.addr = sample.addr ∧ s.pc = sample.pc := by simpa [Data, hlock] using h
      simp [Data, writeStep, State.settled, hfields.1, hfields.2]

theorem copy {stage : ReaderPc} (h : Data s) (hlock : s.lock = some (.reader stage)) :
    Data (copyStep s stage) := by
  cases stage with
  | locked => simpa [Data, hlock, copyStep, State.settled] using h
  | tried => simpa [Data, hlock, copyStep, State.settled] using h
  | copiedAddr reports addr =>
      have hold : s.settled ∧ reports = s.log.length ∧ addr = s.addr := by
        simpa [Data, hlock] using h
      simpa [Data, copyStep, State.settled, hold.2.1, hold.2.2] using hold.1
  | copied reports sample =>
      have hold : s.settled ∧ reports = s.log.length ∧ sample = ⟨s.addr, s.pc⟩ := by
        simpa [Data, hlock] using h
      simpa [Data, copyStep, State.settled] using hold.1
  | faulted => simpa [Data, hlock, copyStep, State.settled] using h

theorem step {e : Event} (h : Data s) (hstep : step s e = some s') : Data s' := by
  refine step_cases hstep ?_ ?_ ?_ h ?_ ?_ ?_ ?_ ?_ ?_
  · intro sample
    exact h
  · intro i sample hlock
    simpa [Data, hlock, State.settled] using h
  · intro stage sample hlock
    exact h.write hlock
  · intro _
    exact h
  · intro _ _
    exact h
  · intro _
    exact h
  · intro hlock _
    simpa [Data, hlock, State.settled] using h
  · intro stage hlock
    exact h.copy hlock
  · intro stage hlock hstage
    rcases hstage with rfl | ⟨k, a, rfl⟩
    · simpa [Data, hlock, State.settled] using h
    · have hold : s.settled ∧ k = s.log.length ∧ a = s.addr := by simpa [Data, hlock] using h
      simpa [Data, State.settled] using hold.1

end Data

/-! ## The reads -/

/-- Which reports the reads have taken. -/
structure Reads (s : State) : Prop where
  older : ∀ r ∈ s.reads, r.1 ≤ s.taken
  returned : ∀ r ∈ s.reads, 0 < r.1 ∧ s.log[r.1 - 1]? = some r.2
  increasing : s.reads.Pairwise fun a b => a.1 < b.1
  /-- The report that is being taken is a new one. -/
  taking : taking s.lock = true → 0 < s.taken ∧ ∀ r ∈ s.reads, r.1 < s.taken
  /-- The last report that was taken has been returned, or its read has failed. -/
  accounted : Handover.taking s.lock = false →
    s.taken = 0 ∨ s.taken ∈ s.reads.map Prod.fst ∨ s.taken ∈ s.lost

namespace Reads

variable {s s' : State}

theorem init : Reads activated := by
  refine ⟨?_, ?_, List.Pairwise.nil, by decide, fun _ => Or.inl rfl⟩
  · simp [activated]
  · simp [activated]

/-- Steps outside the reader's critical section; reports may complete. -/
theorem congr (h : Reads s) (hreads : s'.reads = s.reads) (htaken : s'.taken = s.taken)
    (hlost : s'.lost = s.lost) (hlog : ∃ new, s'.log = s.log ++ new)
    (htaking : Handover.taking s'.lock = Handover.taking s.lock) : Reads s' := by
  refine ⟨?_, ?_, ?_, ?_, ?_⟩
  · simpa [hreads, htaken] using h.older
  · intro r hr
    rw [hreads] at hr
    rcases h.returned r hr with ⟨hpos, hget⟩
    have hlt : r.1 - 1 < s.log.length := (List.getElem?_eq_some_iff.1 hget).1
    rcases hlog with ⟨new, hnew⟩
    refine ⟨hpos, ?_⟩
    rw [hnew, List.getElem?_append_left hlt]
    exact hget
  · simpa [hreads] using h.increasing
  · simpa [hreads, htaken, htaking] using h.taking
  · simpa [hreads, htaken, hlost, htaking] using h.accounted

/-- The permit the reader came in with stands for a report it has not taken yet. -/
theorem take (h : Reads s) (hpermits : Permits s) (hlock : s.lock = some (.reader .locked)) :
    Reads (copyStep s .locked) := by
  have hfresh : s.fresh :=
    hpermits.fresh (Or.inr ⟨hpermits.inside _ hlock, by simp [hlock, Handover.taking]⟩)
  have hlt : s.taken < s.log.length := by simpa [State.fresh, hlock, upped] using hfresh
  refine ⟨?_, h.returned, h.increasing, fun _ => ⟨by show 0 < s.log.length; omega, ?_⟩, ?_⟩
  · intro r hr
    exact (h.older r hr).trans hlt.le
  · intro r hr
    exact (h.older r hr).trans_lt hlt
  · simp [copyStep, Handover.taking]

/-- What the reader has copied is the last report, and no read has returned it before. -/
theorem finish {reports : Nat} {sample : Sample} (h : Reads s) (hpermits : Permits s)
    (hdata : Data s) (hlock : s.lock = some (.reader (.copied reports sample))) :
    Reads (copyStep s (.copied reports sample)) := by
  have htaking : Handover.taking s.lock = true := by simp [hlock, Handover.taking]
  have hcopied : s.settled ∧ reports = s.log.length ∧ sample = ⟨s.addr, s.pc⟩ := by
    simpa [Data, hlock] using hdata
  have hall : s.taken = reports := ((hpermits.taking htaking).2).trans hcopied.2.1.symm
  rcases h.taking htaking with ⟨hpos, hnew⟩
  refine ⟨?_, ?_, ?_, by simp [copyStep, Handover.taking], ?_⟩
  · intro r hr
    rcases List.mem_append.1 hr with hr | hr
    · exact h.older r hr
    · obtain rfl := List.mem_singleton.1 hr
      exact hall.ge
  · intro r hr
    rcases List.mem_append.1 hr with hr | hr
    · exact h.returned r hr
    · obtain rfl := List.mem_singleton.1 hr
      have hne : s.log ≠ [] := by
        rintro hnil
        simp [hnil] at hcopied
        omega
      refine ⟨by omega, ?_⟩
      show s.log[reports - 1]? = some sample
      rw [hcopied.2.1, hcopied.2.2, ← List.getLast?_eq_getElem?]
      exact hcopied.1 hne
  · refine List.pairwise_append.2 ⟨h.increasing, List.pairwise_singleton _ _, ?_⟩
    intro a ha b hb
    obtain rfl := List.mem_singleton.1 hb
    exact (hnew a ha).trans_eq hall
  · intro _
    refine Or.inr (Or.inl ?_)
    show s.taken ∈ (s.reads ++ [(reports, sample)]).map Prod.fst
    simp [hall]

theorem copy {stage : ReaderPc} (h : Reads s) (hpermits : Permits s) (hdata : Data s)
    (hlock : s.lock = some (.reader stage)) : Reads (copyStep s stage) := by
  cases stage with
  | locked => exact h.take hpermits hlock
  | tried =>
      refine h.congr rfl rfl rfl ⟨[], by simp [copyStep]⟩ ?_
      simp [copyStep, hlock, Handover.taking]
  | copiedAddr reports addr =>
      refine h.congr rfl rfl rfl ⟨[], by simp [copyStep]⟩ ?_
      simp [copyStep, hlock, Handover.taking]
  | copied reports sample => exact h.finish hpermits hdata hlock
  | faulted =>
      -- The report that was taken is lost with the failed copy to user space.
      refine ⟨h.older, h.returned, h.increasing, by simp [copyStep, Handover.taking], ?_⟩
      intro _
      refine Or.inr (Or.inr ?_)
      show s.taken ∈ s.lost ++ [s.taken]
      simp

theorem write {stage : WriterPc} {sample : Sample} (h : Reads s)
    (hlock : s.lock = some (.writer stage sample)) : Reads (writeStep s sample stage) := by
  have htaking : Handover.taking (writeStep s sample stage).lock = Handover.taking s.lock := by
    cases stage <;> simp [writeStep, hlock, Handover.taking]
  cases stage with
  | upped => exact h.congr rfl rfl rfl ⟨[sample], rfl⟩ htaking
  | locked | tried | wroteAddr | wrote =>
      exact h.congr rfl rfl rfl ⟨[], by simp [writeStep]⟩ htaking

theorem step {e : Event} (h : Reads s) (hpermits : Permits s) (hdata : Data s)
    (hstep : step s e = some s') : Reads s' := by
  have hsame : ∃ new, s.log = s.log ++ new := ⟨[], by simp⟩
  refine step_cases hstep ?_ ?_ ?_ h ?_ ?_ ?_ ?_ ?_ ?_
  · intro sample
    exact h.congr rfl rfl rfl hsame rfl
  · intro i sample hlock
    exact h.congr rfl rfl rfl hsame (by simp [hlock, Handover.taking])
  · intro stage sample hlock
    exact h.write hlock
  · intro _
    exact h.congr rfl rfl rfl hsame rfl
  · intro _ _
    exact h.congr rfl rfl rfl hsame rfl
  · intro _
    exact h.congr rfl rfl rfl hsame rfl
  · intro hlock _
    exact h.congr rfl rfl rfl hsame (by simp [hlock, Handover.taking])
  · intro stage hlock
    exact h.copy hpermits hdata hlock
  · intro stage hlock hstage
    refine h.congr rfl rfl rfl hsame ?_
    rcases hstage with rfl | ⟨k, a, rfl⟩
    · simp [hlock, Handover.taking]
    · simp [hlock, Handover.taking]

end Reads

/-! ## Every interleaving -/

/-- All three invariants together. -/
structure Invariant (s : State) : Prop where
  permits : Permits s
  data : Data s
  reads : Reads s

theorem Invariant.run {es : List Event} {s : State} (h : Run system activated es s) :
    Invariant s := by
  refine Run.invariant_state ⟨Permits.init, Data.init, Reads.init⟩ ?_ h
  intro s e s' hs _ hstep
  exact ⟨hs.permits.step hstep, hs.data.step hstep, hs.reads.step hs.permits hs.data hstep⟩

/-- What the hand-over promises in every state it can reach. -/
structure HandsOver (s : State) : Prop where
  waitSem : s.waitSem = 0 ∨ s.waitSem = 1
  /-- What the reader has copied is the last complete report. -/
  latest : ∀ reports sample, s.lock = some (.reader (.copied reports sample)) →
    reports = s.log.length ∧ s.log.getLast? = some sample
  /-- Every read has returned the report it counted last when it copied. -/
  returned : ∀ r ∈ s.reads, 0 < r.1 ∧ s.log[r.1 - 1]? = some r.2
  increasing : s.reads.Pairwise fun a b => a.1 < b.1
  /-- With no permit left, no reader past its `down` and no report that has taken back a permit
  without giving its own, the last report has been returned or lost to a failing read. -/
  noneLeft : s.waitSem = 0 → s.reading ≠ .downed → discarding s.lock = false →
    s.log = [] ∨ s.log.length ∈ s.reads.map Prod.fst ∨ s.log.length ∈ s.lost

theorem hands_over {es : List Event} {s : State} (h : Run system activated es s) :
    HandsOver s := by
  have hinv := Invariant.run h
  have hle := hinv.permits.le_one
  refine ⟨by omega, ?_, hinv.reads.returned, hinv.reads.increasing, ?_⟩
  · intro reports sample hlock
    have hcopied : s.settled ∧ reports = s.log.length ∧ sample = ⟨s.addr, s.pc⟩ := by
      simpa [Data, hlock] using hinv.data
    have htaking : taking s.lock = true := by simp [hlock, taking]
    have hpos := (hinv.reads.taking htaking).1
    have hall := (hinv.permits.taking htaking).2
    have hne : s.log ≠ [] := by
      intro hnil
      simp [hnil] at hall
      omega
    rw [hcopied.2.2]
    exact ⟨hcopied.2.1, hcopied.1 hne⟩
  · intro hzero hreading hdiscarding
    have hnotTaking : taking s.lock = false := by
      cases hlock : s.lock with
      | none => rfl
      | some holder =>
          cases holder with
          | writer stage sample => rfl
          | reader stage => exact absurd (hinv.permits.inside stage hlock) hreading
    -- A report that has not been taken would have its permit.
    have hstale : ¬ s.fresh := by
      intro hfresh
      rcases hinv.permits.woken hfresh with hone | hclaimed | hdiscard
      · omega
      · exact hreading hclaimed.1
      · simp [hdiscarding] at hdiscard
    have hall : s.taken = s.log.length := by
      have htaken := hinv.permits.taken_le
      simp only [State.fresh, not_or] at hstale
      omega
    rcases hinv.reads.accounted hnotTaking with hnone | hread | hlost
    · exact Or.inl (List.eq_nil_of_length_eq_zero (hall ▸ hnone))
    · exact Or.inr (Or.inl (hall ▸ hread))
    · exact Or.inr (Or.inr (hall ▸ hlost))

/-- Two reports, one of them while the reader is between its `down` and the mutex; the read returns
the second. -/
theorem hands_over_overtaken :
    ∃ s, Run system activated
        [.report ⟨1, 2⟩, .acquire 0, .write, .write, .write, .write, .write, .read 16 true, .down,
          .report ⟨3, 4⟩, .acquire 0, .write, .write, .write, .write, .write,
          .lockRead, .copy, .copy, .copy, .copy] s ∧
      s.reads = [(2, ⟨3, 4⟩)] ∧ HandsOver s := by
  rcases Run.of_exec system activated
    [.report ⟨1, 2⟩, .acquire 0, .write, .write, .write, .write, .write, .read 16 true, .down,
      .report ⟨3, 4⟩, .acquire 0, .write, .write, .write, .write, .write,
      .lockRead, .copy, .copy, .copy, .copy] (by decide) with ⟨s, hs, hrun⟩
  have hover := hands_over hrun
  obtain rfl := Option.some.inj hs
  exact ⟨_, hrun, by decide, hover⟩

/-- A read that fails in `copy_to_user` loses the report it has taken. -/
example : (system.exec activated
    [.report ⟨1, 2⟩, .acquire 0, .write, .write, .write, .write, .write, .read 16 true, .down,
      .lockRead, .copy, .fault, .copy]).any
    (fun s => s.log = [⟨1, 2⟩] ∧ s.reads = [] ∧ s.lost = [1] ∧ s.waitSem = 0) = true := by
  decide

/-- The second of two reports has taken back the permit of the first and not given its own: a
complete report is unread, the semaphore is 0 and nobody reads. -/
theorem unread_without_permit :
    ∃ s, Run system activated
        [.report ⟨1, 2⟩, .acquire 0, .write, .write, .write, .write, .write,
          .report ⟨3, 4⟩, .acquire 0, .write] s ∧
      s.log = [⟨1, 2⟩] ∧ s.reads = [] ∧ s.lost = [] ∧ s.waitSem = 0 ∧ s.reading = .idle := by
  rcases Run.of_exec system activated
    [.report ⟨1, 2⟩, .acquire 0, .write, .write, .write, .write, .write,
      .report ⟨3, 4⟩, .acquire 0, .write] (by decide) with ⟨s, hs, hrun⟩
  obtain rfl := Option.some.inj hs
  exact ⟨_, hrun, by decide, by decide, by decide, by decide, by decide⟩

end Handover
end Kernel
end Shambles
