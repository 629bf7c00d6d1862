import Shambles.Logger.Decode

/-!
# Calls — the log functions under threads

Any number of threads call `logAlloc` and `logMigration`, each of which has a mutex of its own; one
thread, the sampler, calls `logSample`, which takes none.  A call is three steps: the call itself,
the part from the lock to the last store before `clock_gettime`, and the store of the time with the
step to the next cell and the unlock.  Between two steps other threads run and the clock goes on.

* `openRecord` and `stampRecord` are the two parts of `log` (`open_stamp`).
* `World.returned` is ghost: the calls that have returned, with the clock when they were called and
  when they read it.
* `Inv` says what each file holds between any two steps.  That `logSample` needs no lock is part of
  it: no thread makes two calls at a time.
-/

namespace Shambles
namespace Logger

open Layout MappedFile

/-! ## The clock -/

/-- The moments that a `struct timespec` can hold, in nanoseconds. -/
def CLOCK_END : Nat :=
  2 ^ 63 * 1000000000

/-- `clock_gettime` with `CLOCK_MONOTONIC`, `now` nanoseconds after some start. -/
def clockGettime (now : Nat) : Timespec :=
  ⟨BitVec.ofNat 64 (now / 1000000000), BitVec.ofNat 64 (now % 1000000000)⟩

/-! ## The arguments of a call -/

inductive Request
  | sample (addr : BitVec 64) (code : Option (Fin 15 → Byte)) (flags : BitVec 16)
  | alloc (type : Jemalloc.AllocEventType) (inPtr outPtr size : BitVec 64)
  | migration (dir : Plugins.Direction) (addr size : BitVec 64)

namespace Request

def log : Request → Log
  | .sample .. => .sample
  | .alloc .. => .alloc
  | .migration .. => .migration

/-- What is stored before the clock is read. -/
def body : Request → List Field
  | .sample addr code _ => ⟨0, 8, addr⟩ :: codeFields code
  | .alloc type inPtr outPtr size =>
      [⟨0, 4, typeCode type⟩, ⟨8, 8, inPtr⟩, ⟨16, 8, outPtr⟩, ⟨24, 8, size⟩]
  | .migration dir addr size => [⟨8, 4, dirCode dir⟩, ⟨0, 8, addr⟩, ⟨16, 8, size⟩]

/-- The call as an event of a file, if it writes to that file. -/
def event (t : Timespec) : Request → (l : Log) → Option l.Event
  | .sample addr code flags, .sample => some (⟨addr, code, flags, t⟩ : SampleEvent)
  | .alloc type inPtr outPtr size, .alloc => some (⟨type, inPtr, outPtr, size, t⟩ : AllocEvent)
  | .migration dir addr size, .migration => some (⟨dir, addr, size, t⟩ : MigrationEvent)
  | _, _ => none

end Request

/-- Where the record of a file has its timestamp. -/
def Log.timeOffset : Log → Nat
  | .sample => 24
  | .alloc => 112
  | .migration => 24

/-- Whether the function takes a mutex. -/
def Log.locked : Log → Bool
  | .sample => false
  | .alloc => true
  | .migration => true

theorem Log.eq_sample {l : Log} (h : l.locked = false) : l = .sample := by
  cases l with
  | sample => rfl
  | alloc => cases h
  | migration => cases h

theorem Request.event_log (r : Request) (t : Timespec) : ∃ e, r.event t r.log = some e ∧
    r.log.format.fields e = r.body ++ timeFields r.log.timeOffset t := by
  cases r with
  | sample addr code flags => exact ⟨_, rfl, rfl⟩
  | alloc type inPtr outPtr size => exact ⟨_, rfl, rfl⟩
  | migration dir addr size => exact ⟨_, rfl, rfl⟩

theorem Request.event_of_ne {r : Request} {l : Log} (h : r.log ≠ l) (t : Timespec) :
    r.event t l = none := by
  cases r <;> cases l <;> first | rfl | exact absurd rfl h

/-! ## The two parts of a call -/

section Parts

variable {ε ρ : Type} (F : Format ε ρ)

/-- The count and the stores before the clock is read. -/
def storeBody (body : List Field) (s : State) : Option State :=
  match storeBytes WINDOW s.maps s.file s.cntFile (countBytes (s.cnt + 1)) with
  | none => none
  | some file =>
      (storeBytes WINDOW s.maps file s.ptr (bytesOf body)).map fun file' =>
        { s with file := file', cnt := s.cnt + 1 }

/-- The same with the test of the record pointer before it. -/
def openRecord (body : List Field) (s : State) (mmapAt : Nat) : Option State :=
  storeBody body (if s.ptr &&& 0x1fffff = 0 then nextWindow s mmapAt else s)

/-- The timestamp, then the step to the next cell. -/
def stampRecord (timeOffset : Nat) (s : State) (t : Timespec) : Option State :=
  (storeBytes WINDOW s.maps s.file s.ptr (bytesOf (timeFields timeOffset t))).map fun file =>
    { s with file := file, ptr := s.ptr + F.size }

theorem storeBytes_append {window : Nat} {maps : List Mapping} {ptr : Nat}
    (bytes bytes' : List (Nat × Byte)) (file : Nat → Byte) :
    storeBytes window maps file ptr (bytes ++ bytes') =
      (storeBytes window maps file ptr bytes).bind fun file' =>
        storeBytes window maps file' ptr bytes' := by
  induction bytes generalizing file with
  | nil => rfl
  | cons x bytes ih =>
      simp only [List.cons_append, storeBytes]
      cases store window maps file (ptr + x.1) x.2 with
      | none => rfl
      | some file' => exact ih file'

theorem body_stamp {body : List Field} {timeOffset : Nat} {t : Timespec} {e : ε}
    (hfields : F.fields e = body ++ timeFields timeOffset t) (s : State) :
    (storeBody body s).bind (fun s' => stampRecord F timeOffset s' t) = writeRecord F s e := by
  have hbytes : bytesOf (F.fields e) = bytesOf body ++ bytesOf (timeFields timeOffset t) := by
    simp [hfields, bytesOf]
  simp only [storeBody, writeRecord, hbytes, storeBytes_append]
  cases storeBytes WINDOW s.maps s.file s.cntFile (countBytes (s.cnt + 1)) with
  | none => rfl
  | some file =>
      simp only
      cases storeBytes WINDOW s.maps file s.ptr (bytesOf body) with
      | none => rfl
      | some file' =>
          simp only [stampRecord, Option.map_some, Option.bind_some]
          cases storeBytes WINDOW s.maps file' s.ptr (bytesOf (timeFields timeOffset t)) <;> rfl

/-- With nothing in between, the two parts are the call. -/
theorem open_stamp {body : List Field} {timeOffset : Nat} {t : Timespec} (call : Call ε)
    (hfields : F.fields call.event = body ++ timeFields timeOffset t) (s : State) :
    (openRecord body s call.mmapAt).bind (fun s' => stampRecord F timeOffset s' t) =
      log F s call := by
  rw [log_eq_ready]
  exact body_stamp F hfields (ready s call)

end Parts

/-! ## The threads -/

/-- A call that has not returned; `inside` from the lock on. -/
structure Pending where
  request : Request
  /-- The clock when the function was called. -/
  began : Nat
  inside : Bool

/-- A call that has returned. -/
structure Returned where
  request : Request
  began : Nat
  /-- The clock when it was read. -/
  stamped : Nat

structure World where
  clock : Nat
  logs : Log → State
  /-- The holders of `logLock` and `migLock`. -/
  locks : Log → Option Nat
  threads : Nat → Option Pending
  /-- Ghost: in the order of the return. -/
  returned : List Returned

inductive Action
  | tick (d : Nat)
  | call (t : Nat) (r : Request)
  | enter (t mmapAt : Nat)
  | finish (t : Nat)

namespace World

/-- After `loggerInit`. -/
def init (now : Nat) (bases : Log → Nat) : World :=
  { clock := now
    logs := fun l => loggerInit l.format (bases l)
    locks := fun _ => none
    threads := fun _ => none
    returned := [] }

/-- `pthread_mutex_lock` and `pthread_mutex_unlock`, in the functions that have them. -/
def setLock (w : World) (l : Log) (holder : Option Nat) : Log → Option Nat :=
  if l.locked then Function.update w.locks l holder else w.locks

def step (w : World) : Action → Option World
  | .tick d => some { w with clock := w.clock + d }
  | .call t r => some { w with threads := Function.update w.threads t (some ⟨r, w.clock, false⟩) }
  | .enter t mmapAt =>
      match w.threads t with
      | some ⟨r, began, false⟩ =>
          (openRecord r.body (w.logs r.log) mmapAt).map fun s =>
            { w with
              logs := Function.update w.logs r.log s
              locks := w.setLock r.log (some t)
              threads := Function.update w.threads t (some ⟨r, began, true⟩) }
      | _ => none
  | .finish t =>
      match w.threads t with
      | some ⟨r, began, true⟩ =>
          (stampRecord r.log.format r.log.timeOffset (w.logs r.log) (clockGettime w.clock)).map
            fun s =>
              { w with
                logs := Function.update w.logs r.log s
                locks := w.setLock r.log none
                threads := Function.update w.threads t none
                returned := w.returned ++ [⟨r, began, w.clock⟩] }
      | _ => none

/-- A thread makes one call at a time, and only the sampler calls `logSample`.  A mutex is taken
when nobody holds it. -/
def Enabled (sampler : Nat) (w : World) : Action → Prop
  | .tick d => w.clock + d < CLOCK_END
  | .call t r => w.threads t = none ∧ (r.log = .sample → t = sampler)
  | .enter t mmapAt => ∃ c ∈ w.threads t, c.inside = false ∧
      (c.request.log.locked = true → w.locks c.request.log = none) ∧
      Logger.Enabled (w.logs c.request.log) (⟨(), mmapAt⟩ : Call Unit)
  | .finish t => ∃ c ∈ w.threads t, c.inside = true

def system (sampler : Nat) : System World Action :=
  { enabled := Enabled sampler
    step := step }

instance (s : State) (call : Call Unit) : Decidable (Logger.Enabled s call) :=
  inferInstanceAs (Decidable (s.ptr &&& 0x1fffff = 0 →
    WINDOW ∣ call.mmapAt ∧ ∀ m ∈ (retire s).maps, m.base ≠ call.mmapAt))

instance (sampler : Nat) (w : World) : (a : Action) → Decidable (Enabled sampler w a)
  | .tick _ => inferInstanceAs (Decidable (_ < _))
  | .call _ _ => inferInstanceAs (Decidable (_ ∧ _))
  | .enter t _ => inferInstanceAs (Decidable (∃ c ∈ w.threads t, _))
  | .finish t => inferInstanceAs (Decidable (∃ c ∈ w.threads t, _))

instance (sampler : Nat) (w : World) (a : Action) : Decidable ((system sampler).enabled w a) :=
  inferInstanceAs (Decidable (Enabled sampler w a))

/-- No call is inside: nobody holds a mutex, and the sampler is not in `logSample`. -/
def Quiet (sampler : Nat) (w : World) : Prop :=
  w.locks .alloc = none ∧ w.locks .migration = none ∧ ∀ c ∈ w.threads sampler, c.inside = false

instance (sampler : Nat) (w : World) : Decidable (Quiet sampler w) :=
  inferInstanceAs (Decidable (_ ∧ _ ∧ ∀ c ∈ w.threads sampler, c.inside = false))

end World

/-- What a file should hold. -/
def events (returned : List Returned) (l : Log) : List l.Event :=
  returned.filterMap fun x => x.request.event (clockGettime x.stamped) l

theorem events_snoc_self (returned : List Returned) (x : Returned) {e : x.request.log.Event}
    (he : x.request.event (clockGettime x.stamped) x.request.log = some e) :
    events (returned ++ [x]) x.request.log = events returned x.request.log ++ [e] := by
  simp [events, he]

theorem events_snoc_of_ne (returned : List Returned) {x : Returned} {l : Log}
    (h : x.request.log ≠ l) : events (returned ++ [x]) l = events returned l := by
  simp [events, Request.event_of_ne h]

/-! ## What the files hold between two steps -/

/-- A call is inside: the record is there but for the timestamp, and the pointer still shows it. -/
def Opened {ε ρ : Type} (F : Format ε ρ) (base : Nat) (es : List ε) (body : List Field)
    (s : State) : Prop :=
  ∃ s₀ mmapAt, Inv F base es s₀ ∧ Enabled s₀ (⟨(), mmapAt⟩ : Call Unit) ∧
    openRecord body s₀ mmapAt = some s

theorem Inv.openRecord {r : Request} {base mmapAt : Nat} {es : List r.log.Event} {s : State}
    (h : Inv r.log.format base es s) (hen : Enabled s (⟨(), mmapAt⟩ : Call Unit)) :
    ∃ s', openRecord r.body s mmapAt = some s' ∧ Opened r.log.format base es r.body s' := by
  -- any time will do: the first part of the call does not depend on it
  rcases r.event_log ⟨0, 0⟩ with ⟨e, -, hfields⟩
  rcases h.log (show Enabled s ⟨e, mmapAt⟩ from hen) with ⟨s₁, hlog, -⟩
  rw [← open_stamp r.log.format ⟨e, mmapAt⟩ hfields] at hlog
  rcases Option.bind_eq_some_iff.1 hlog with ⟨s', hopen, -⟩
  exact ⟨s', hopen, s, mmapAt, h, hen, hopen⟩

theorem Opened.stampRecord {r : Request} {base : Nat} {es : List r.log.Event} {s : State}
    (h : Opened r.log.format base es r.body s) {t : Timespec} {e : r.log.Event}
    (hfields : r.log.format.fields e = r.body ++ timeFields r.log.timeOffset t) :
    ∃ s', stampRecord r.log.format r.log.timeOffset s t = some s' ∧
      Inv r.log.format base (es ++ [e]) s' := by
  rcases h with ⟨s₀, mmapAt, hinv, hen, hopen⟩
  rcases hinv.log (show Enabled s₀ ⟨e, mmapAt⟩ from hen) with ⟨s', hlog, hinv'⟩
  rw [← open_stamp r.log.format ⟨e, mmapAt⟩ hfields, hopen] at hlog
  exact ⟨s', hlog, hinv'⟩

theorem update_eq_some {threads : Nat → Option Pending} {t t' : Nat} {new : Option Pending}
    {c : Pending} (h : Function.update threads t new t' = some c) :
    (t' = t ∧ new = some c) ∨ (t' ≠ t ∧ threads t' = some c) := by
  by_cases ht : t' = t
  · subst ht
    exact Or.inl ⟨rfl, by simpa using h⟩
  · exact Or.inr ⟨ht, by simpa [ht] using h⟩

theorem World.setLock_self (w : World) {l : Log} (hl : l.locked = true) (holder : Option Nat) :
    w.setLock l holder l = holder := by
  simp [setLock, hl]

theorem World.setLock_of_ne (w : World) {l l' : Log} (hne : l' ≠ l) (holder : Option Nat) :
    w.setLock l holder l' = w.locks l' := by
  unfold setLock
  split
  · exact Function.update_of_ne hne _ _
  · rfl

structure Safe (sampler : Nat) (bases : Log → Nat) (w : World) : Prop where
  sampler : ∀ t c, w.threads t = some c → c.request.log = .sample → t = sampler
  holder : ∀ t c, w.threads t = some c → c.inside = true → c.request.log.locked = true →
    w.locks c.request.log = some t
  idle : ∀ l, (∀ t c, w.threads t = some c → c.inside = true → c.request.log ≠ l) →
    Inv l.format (bases l) (events w.returned l) (w.logs l)
  opened : ∀ t c, w.threads t = some c → c.inside = true →
    Opened c.request.log.format (bases c.request.log) (events w.returned c.request.log)
      c.request.body (w.logs c.request.log)
  called : ∀ t c, w.threads t = some c → c.began ≤ w.clock
  /-- The clock was read between the call and the return. -/
  spans : ∀ x ∈ w.returned, x.began ≤ x.stamped ∧ x.stamped ≤ w.clock
  sorted : w.returned.Pairwise fun x y => x.stamped ≤ y.stamped
  clock : w.clock < CLOCK_END

namespace Safe

variable {sampler now : Nat} {bases : Log → Nat} {w w' : World}

theorem init (hbases : ∀ l, WINDOW ∣ bases l) (hnow : now < CLOCK_END) :
    Safe sampler bases (World.init now bases) where
  sampler := by simp [World.init]
  holder := by simp [World.init]
  idle := by
    intro l _
    exact Inv.init l.format (hbases l)
  opened := by simp [World.init]
  called := by simp [World.init]
  spans := by simp [World.init]
  sorted := List.Pairwise.nil
  clock := hnow

/-- Two calls inside on one file are the same call. -/
theorem alone (h : Safe sampler bases w) {t t' : Nat} {c c' : Pending}
    (hc : w.threads t = some c) (hc' : w.threads t' = some c') (hin : c.inside = true)
    (hin' : c'.inside = true) (hlog : c.request.log = c'.request.log) : t = t' := by
  cases hlocked : c.request.log.locked with
  | true =>
      have hholder := h.holder t c hc hin hlocked
      rw [hlog] at hlocked hholder
      exact Option.some.inj (hholder.symm.trans (h.holder t' c' hc' hin' hlocked))
  | false =>
      -- a file without a mutex has one thread
      have hsample := Log.eq_sample hlocked
      rw [h.sampler t c hc hsample, h.sampler t' c' hc' (hlog ▸ hsample)]

theorem tick (h : Safe sampler bases w) {d : Nat} (hlt : w.clock + d < CLOCK_END) :
    Safe sampler bases { w with clock := w.clock + d } :=
  { h with
    called := fun t c hc => (h.called t c hc).trans (Nat.le_add_right _ _)
    spans := fun x hx => ⟨(h.spans x hx).1, (h.spans x hx).2.trans (Nat.le_add_right _ _)⟩
    clock := hlt }

/-- A new call is not inside. -/
theorem call (h : Safe sampler bases w) {t : Nat} {r : Request} (hfree : w.threads t = none)
    (hsampler : r.log = .sample → t = sampler) :
    Safe sampler bases
      { w with threads := Function.update w.threads t (some ⟨r, w.clock, false⟩) } := by
  have hinside : ∀ t' c, Function.update w.threads t (some ⟨r, w.clock, false⟩) t' = some c →
      c.inside = true → w.threads t' = some c := by
    intro t' c hc hin
    rcases update_eq_some hc with ⟨rfl, ⟨⟩⟩ | ⟨-, hc⟩
    · cases hin
    · exact hc
  refine { h with sampler := ?_, holder := ?_, idle := ?_, opened := ?_, called := ?_ }
  · intro t' c hc hsample
    rcases update_eq_some hc with ⟨rfl, ⟨⟩⟩ | ⟨-, hc⟩
    · exact hsampler hsample
    · exact h.sampler t' c hc hsample
  · intro t' c hc hin
    exact h.holder t' c (hinside t' c hc hin) hin
  · intro l hl
    refine h.idle l ?_
    intro t' c hc hin
    refine hl t' c ?_ hin
    have ht : t' ≠ t := by
      rintro rfl
      rw [hfree] at hc
      cases hc
    exact (Function.update_of_ne ht _ _).trans hc
  · intro t' c hc hin
    exact h.opened t' c (hinside t' c hc hin) hin
  · intro t' c hc
    rcases update_eq_some hc with ⟨rfl, ⟨⟩⟩ | ⟨-, hc⟩
    · exact le_refl _
    · exact h.called t' c hc

/-- Nobody is inside on the file of a call that may go in. -/
theorem idle_of_enabled (h : Safe sampler bases w) {t : Nat} {c : Pending}
    (hc : w.threads t = some c) (hout : c.inside = false)
    (hlock : c.request.log.locked = true → w.locks c.request.log = none) :
    ∀ t' c', w.threads t' = some c' → c'.inside = true → c'.request.log ≠ c.request.log := by
  intro t' c' hc' hin hlog
  cases hlocked : c.request.log.locked with
  | true =>
      have hholder := h.holder t' c' hc' hin (hlog ▸ hlocked)
      rw [hlog, hlock hlocked] at hholder
      cases hholder
  | false =>
      have hsample := Log.eq_sample hlocked
      have heq : t' = t := by
        rw [h.sampler t c hc hsample, h.sampler t' c' hc' (hlog.trans hsample)]
      rw [heq, hc] at hc'
      obtain rfl := Option.some.inj hc'
      rw [hout] at hin
      cases hin

/-- The call takes the lock and opens its record. -/
theorem enter (h : Safe sampler bases w) {t began mmapAt : Nat} {r : Request}
    (hc : w.threads t = some ⟨r, began, false⟩) (hlock : r.log.locked = true → w.locks r.log = none)
    (hen : Enabled (w.logs r.log) (⟨(), mmapAt⟩ : Call Unit)) :
    ∃ s, openRecord r.body (w.logs r.log) mmapAt = some s ∧
      Safe sampler bases
        { w with
          logs := Function.update w.logs r.log s
          locks := w.setLock r.log (some t)
          threads := Function.update w.threads t (some ⟨r, began, true⟩) } := by
  have hidle : ∀ t' c, w.threads t' = some c → c.inside = true → c.request.log ≠ r.log :=
    h.idle_of_enabled hc rfl hlock
  rcases (h.idle r.log hidle).openRecord hen with ⟨s, hopen, hopened⟩
  refine ⟨s, hopen, { h with sampler := ?_, holder := ?_, idle := ?_, opened := ?_, called := ?_ }⟩
  · intro t' c hc' hsample
    rcases update_eq_some hc' with ⟨rfl, ⟨⟩⟩ | ⟨-, hc'⟩
    · exact h.sampler t' _ hc hsample
    · exact h.sampler t' c hc' hsample
  · intro t' c hc' hin hlocked
    rcases update_eq_some hc' with ⟨rfl, ⟨⟩⟩ | ⟨-, hc'⟩
    · exact w.setLock_self hlocked _
    · exact (w.setLock_of_ne (hidle t' c hc' hin) _).trans (h.holder t' c hc' hin hlocked)
  · intro l hl
    have hne : l ≠ r.log := (hl t ⟨r, began, true⟩ (Function.update_self ..) rfl).symm
    simp only [Function.update_of_ne hne]
    refine h.idle l ?_
    intro t' c hc' hin
    refine hl t' c ?_ hin
    have ht : t' ≠ t := by
      rintro rfl
      rw [hc] at hc'
      obtain rfl := Option.some.inj hc'
      cases hin
    exact (Function.update_of_ne ht _ _).trans hc'
  · intro t' c hc' hin
    rcases update_eq_some hc' with ⟨rfl, ⟨⟩⟩ | ⟨-, hc'⟩
    · simpa only [Function.update_self] using hopened
    · simp only [Function.update_of_ne (hidle t' c hc' hin)]
      exact h.opened t' c hc' hin
  · intro t' c hc'
    rcases update_eq_some hc' with ⟨rfl, ⟨⟩⟩ | ⟨-, hc'⟩
    · exact h.called t' ⟨r, began, false⟩ hc
    · exact h.called t' c hc'

/-- The call reads the clock, completes its record and gives the lock back. -/
theorem finish (h : Safe sampler bases w) {t began : Nat} {r : Request}
    (hc : w.threads t = some ⟨r, began, true⟩) :
    ∃ s, stampRecord r.log.format r.log.timeOffset (w.logs r.log) (clockGettime w.clock) = some s ∧
      Safe sampler bases
        { w with
          logs := Function.update w.logs r.log s
          locks := w.setLock r.log none
          threads := Function.update w.threads t none
          returned := w.returned ++ [⟨r, began, w.clock⟩] } := by
  have hother : ∀ t' c, Function.update w.threads t none t' = some c →
      w.threads t' = some c ∧ (c.inside = true → c.request.log ≠ r.log) := by
    intro t' c hc'
    rcases update_eq_some hc' with ⟨-, hnone⟩ | ⟨ht, hc'⟩
    · cases hnone
    · refine ⟨hc', ?_⟩
      intro hin hlog
      exact ht (h.alone hc' hc hin rfl hlog)
  rcases r.event_log (clockGettime w.clock) with ⟨e, he, hfields⟩
  rcases (h.opened t _ hc rfl).stampRecord hfields with ⟨s, hstamp, hinv⟩
  refine ⟨s, hstamp, ?_, ?_, ?_, ?_, ?_, ?_, ?_, h.clock⟩
  · intro t' c hc'
    exact h.sampler t' c (hother t' c hc').1
  · intro t' c hc' hin hlocked
    exact (w.setLock_of_ne ((hother t' c hc').2 hin) _).trans
      (h.holder t' c (hother t' c hc').1 hin hlocked)
  · intro l hl
    by_cases hlog : l = r.log
    · subst hlog
      simp only [Function.update_self]
      rw [events_snoc_self w.returned ⟨r, began, w.clock⟩ he]
      exact hinv
    · simp only [Function.update_of_ne hlog]
      rw [events_snoc_of_ne w.returned (Ne.symm hlog)]
      refine h.idle l ?_
      intro t' c hc' hin
      by_cases ht : t' = t
      · subst ht
        rw [hc] at hc'
        obtain rfl := Option.some.inj hc'
        exact Ne.symm hlog
      · exact hl t' c ((Function.update_of_ne ht _ _).trans hc') hin
  · intro t' c hc' hin
    have hne := (hother t' c hc').2 hin
    simp only [Function.update_of_ne hne]
    rw [events_snoc_of_ne w.returned (Ne.symm hne)]
    exact h.opened t' c (hother t' c hc').1 hin
  · intro t' c hc'
    exact h.called t' c (hother t' c hc').1
  · intro x hx
    rcases List.mem_append.1 hx with hx | hx
    · exact h.spans x hx
    · obtain rfl := List.mem_singleton.1 hx
      exact ⟨h.called t _ hc, le_refl _⟩
  · refine List.pairwise_append.2 ⟨h.sorted, List.pairwise_singleton _ _, ?_⟩
    intro x hx y hy
    obtain rfl := List.mem_singleton.1 hy
    exact (h.spans x hx).2

/-- Without a call inside, each file holds the calls that have returned. -/
theorem holds (h : Safe sampler bases w) (hquiet : w.Quiet sampler) (l : Log) :
    Inv l.format (bases l) (events w.returned l) (w.logs l) := by
  rcases hquiet with ⟨halloc, hmigration, hsampler⟩
  refine h.idle l ?_
  intro t c hc hin _
  have hfree : c.request.log.locked = true → w.locks c.request.log = none := by
    intro hlocked
    cases hl : c.request.log with
    | sample => simp [hl, Log.locked] at hlocked
    | alloc => exact halloc
    | migration => exact hmigration
  cases hlocked : c.request.log.locked with
  | true =>
      have hholder := h.holder t c hc hin hlocked
      rw [hfree hlocked] at hholder
      cases hholder
  | false =>
      obtain rfl := h.sampler t c hc (Log.eq_sample hlocked)
      rw [hsampler c hc] at hin
      cases hin

/-- Every enabled step is defined and keeps the files. -/
theorem step (h : Safe sampler bases w) {a : Action} (hen : w.Enabled sampler a) :
    ∃ w', w.step a = some w' ∧ Safe sampler bases w' := by
  cases a with
  | tick d => exact ⟨_, rfl, h.tick hen⟩
  | call t r => exact ⟨_, rfl, h.call hen.1 hen.2⟩
  | enter t mmapAt =>
      rcases hen with ⟨⟨r, began, inside⟩, hc, hout, hlock, hmap⟩
      obtain rfl : inside = false := hout
      have hc' : w.threads t = some ⟨r, began, false⟩ := hc
      rcases h.enter hc' hlock hmap with ⟨s, hopen, hsafe⟩
      exact ⟨_, by simp only [World.step, hc', hopen, Option.map_some], hsafe⟩
  | finish t =>
      rcases hen with ⟨⟨r, began, inside⟩, hc, hin⟩
      obtain rfl : inside = true := hin
      have hc' : w.threads t = some ⟨r, began, true⟩ := hc
      rcases h.finish hc' with ⟨s, hstamp, hsafe⟩
      exact ⟨_, by simp only [World.step, hc', hstamp, Option.map_some], hsafe⟩

theorem run {as : List Action} (hbases : ∀ l, WINDOW ∣ bases l) (hnow : now < CLOCK_END)
    (hrun : Run (World.system sampler) (World.init now bases) as w) : Safe sampler bases w := by
  refine Run.invariant_state (init hbases hnow) ?_ hrun
  intro w a w' h hen hst
  rcases h.step hen with ⟨w₁, hw₁, hsafe⟩
  obtain rfl : w₁ = w' := Option.some.inj (hw₁.symm.trans hst)
  exact hsafe

end Safe

end Logger
end Shambles
