import Shambles.Lib.QueueMerge
import Shambles.Lib.Runs
import Shambles.Logger.Records

/-!
# PrintLog — the merge of the three logs

`main` of `print-log.c` from the point on where the three files are mapped: the lists are the
records that the files hold.  The main loop prints one record in every round; `printTime` rewrites
the timestamp of that record in the mapping, behind the cursor of its list.

* `select` is the nested decision of the loop; `select_spec` says that it takes a least head, where
  of equal timestamps an allocation comes first and a migration last.
* `Printed.iteration` ties one round to a step of `QueueMerge.Merged`.
* `printTime_spec` computes the printed time.  The difference of the seconds is taken in a `long`.
-/

namespace Shambles
namespace Logger

/-- Of equal timestamps, allocations come first and migrations last. -/
def Log.rank : Log → Nat
  | .alloc => 0
  | .sample => 1
  | .migration => 2

namespace PrintLog

open QueueMerge

/-! ## Times -/

def LONG_MAX : BitVec 64 := 0x7fffffffffffffff

/-- The comparison that every condition of `main` writes out. -/
def before (t u : Timespec) : Bool :=
  t.tvSec.slt u.tvSec || (t.tvSec == u.tvSec && t.tvNsec.slt u.tvNsec)

/-- The timestamp as `printTime` leaves it in the record, and the time it prints. -/
def printTime (start timestamp : Timespec) : Timespec × Timespec :=
  let timestamp : Timespec :=
    if timestamp.tvNsec.slt start.tvNsec then
      -- borrow a second
      ⟨timestamp.tvSec - 1, timestamp.tvNsec + 1000000000⟩
    else
      timestamp
  (timestamp, ⟨timestamp.tvSec - start.tvSec, timestamp.tvNsec - start.tvNsec⟩)

/-! ## Lines -/

def dirs : List String :=
  ["initialised at fast", "initialised at slow", "migrated slow -> fast", "migrated fast -> slow"]

/-- One constructor for each format string, with the arguments of `printf`. -/
inductive Text
  | allocated (size outPtr : BitVec 64)
  | realloced (outPtr size : BitVec 64)
  | moved (inPtr size outPtr : BitVec 64)
  | freed (inPtr : BitVec 64)
  | sampled (addr : BitVec 64)
  /-- `none` for a direction outside of `dirs`. -/
  | migrated (addr size : BitVec 64) (dir : Option String)
  deriving DecidableEq, Repr

structure Line where
  time : Timespec
  text : Text
  deriving DecidableEq, Repr

def onAlloc (start : Timespec) (event : AllocRecord) : AllocRecord × Line :=
  let (timestamp, time) := printTime start event.timestamp
  let text : Text :=
    if event.type = typeCode .alloc then
      .allocated event.size event.outPtr
    else if event.type = typeCode .realloc then
      if event.outPtr = event.inPtr then
        .realloced event.outPtr event.size
      else
        .moved event.inPtr event.size event.outPtr
    else
      .freed event.inPtr
  ({ event with timestamp := timestamp }, ⟨time, text⟩)

def onSample (start : Timespec) (event : SampleRecord) : SampleRecord × Line :=
  let (timestamp, time) := printTime start event.timestamp
  ({ event with timestamp := timestamp }, ⟨time, .sampled event.addr⟩)

def onMigration (start : Timespec) (event : MigrationRecord) : MigrationRecord × Line :=
  let (timestamp, time) := printTime start event.timestamp
  ({ event with timestamp := timestamp },
    ⟨time, .migrated event.addr event.size dirs[event.dir.toNat]?⟩)

/-! ## The main loop -/

/-- A record of one of the three files. -/
inductive Entry
  | alloc (event : AllocRecord)
  | sample (event : SampleRecord)
  | migration (event : MigrationRecord)

def Entry.timestamp : Entry → Timespec
  | .alloc event => event.timestamp
  | .sample event => event.timestamp
  | .migration event => event.timestamp

structure State where
  start : Timespec
  allocs : List AllocRecord
  samples : List SampleRecord
  migs : List MigrationRecord
  allocIndx : Nat
  sampleIndx : Nat
  migIndx : Nat
  out : List Line

/-- The test that is made in three places: a migration if there is one before `x`, else `x`. -/
def migrationOr (mig : Option MigrationRecord) (x : Entry) : Entry :=
  match mig.filter fun mig => before mig.timestamp x.timestamp with
  | some mig => .migration mig
  | none => x

/-- Which of the records under the cursors comes next; a cursor at the end of its list has none. -/
def select : Option AllocRecord → Option SampleRecord → Option MigrationRecord → Option Entry
  | some alloc, sample, mig =>
      match sample.filter fun sample => before sample.timestamp alloc.timestamp with
      | some sample => some (migrationOr mig (.sample sample))
      | none => some (migrationOr mig (.alloc alloc))
  | none, some sample, mig => some (migrationOr mig (.sample sample))
  | none, none, some mig => some (.migration mig)
  | none, none, none => none

/-- Print the record under a cursor and move the cursor on. -/
def State.print (s : State) : Entry → State
  | .alloc event =>
      { s with
        allocs := s.allocs.set s.allocIndx (onAlloc s.start event).1
        allocIndx := s.allocIndx + 1
        out := s.out ++ [(onAlloc s.start event).2] }
  | .sample event =>
      { s with
        samples := s.samples.set s.sampleIndx (onSample s.start event).1
        sampleIndx := s.sampleIndx + 1
        out := s.out ++ [(onSample s.start event).2] }
  | .migration event =>
      { s with
        migs := s.migs.set s.migIndx (onMigration s.start event).1
        migIndx := s.migIndx + 1
        out := s.out ++ [(onMigration s.start event).2] }

/-- One round of the loop; `none` is `return 0`. -/
def iteration (s : State) : Option State :=
  (select s.allocs[s.allocIndx]? s.samples[s.sampleIndx]? s.migs[s.migIndx]?).map s.print

/-- `start` after a look at the first record of a list. -/
def updateStart (start : Timespec) (first : Option Timespec) : Timespec :=
  match first with
  | some timestamp => if before timestamp start then timestamp else start
  | none => start

def startOf (allocs : List AllocRecord) (samples : List SampleRecord)
    (migs : List MigrationRecord) : Timespec :=
  let start : Timespec := ⟨LONG_MAX, LONG_MAX⟩
  let start := updateStart start (allocs.head?.map AllocRecord.timestamp)
  let start := updateStart start (samples.head?.map SampleRecord.timestamp)
  updateStart start (migs.head?.map MigrationRecord.timestamp)

def State.init (allocs : List AllocRecord) (samples : List SampleRecord)
    (migs : List MigrationRecord) : State :=
  { start := startOf allocs samples migs
    allocs := allocs
    samples := samples
    migs := migs
    allocIndx := 0
    sampleIndx := 0
    migIndx := 0
    out := [] }

/-- The lines that are printed, if the loop returns within `fuel` rounds. -/
def printLog (fuel : Nat) (allocs : List AllocRecord) (samples : List SampleRecord)
    (migs : List MigrationRecord) : Option (List Line) :=
  (loop iteration fuel (State.init allocs samples migs)).map State.out

/-! ## The order of the records -/

/-- A timestamp as a pair of numbers, the seconds first. -/
def timeKey (t : Timespec) : ℤ ×ₗ ℤ :=
  toLex (t.tvSec.toInt, t.tvNsec.toInt)

namespace Entry

/-- The file that the record is from. -/
def kind : Entry → Log
  | .alloc _ => .alloc
  | .sample _ => .sample
  | .migration _ => .migration

def key (x : Entry) : (ℤ ×ₗ ℤ) ×ₗ Nat :=
  toLex (timeKey x.timestamp, x.kind.rank)

/-- The line that is printed for a record. -/
def line (start : Timespec) : Entry → Line
  | .alloc event => (onAlloc start event).2
  | .sample event => (onSample start event).2
  | .migration event => (onMigration start event).2

theorem line_time (start : Timespec) (x : Entry) :
    (x.line start).time = (printTime start x.timestamp).2 := by
  cases x <;> rfl

end Entry

theorem before_iff (t u : Timespec) : before t u = true ↔ timeKey t < timeKey u := by
  simp [before, timeKey, Prod.Lex.toLex_lt_toLex, BitVec.slt_iff_toInt_lt, BitVec.toInt_inj]

theorem key_le_of_timeKey_le {x y : Entry} (h : timeKey x.timestamp ≤ timeKey y.timestamp)
    (hrank : x.kind.rank ≤ y.kind.rank) : x.key ≤ y.key := by
  rcases h.lt_or_eq with hlt | heq
  · exact Prod.Lex.toLex_le_toLex.2 (Or.inl hlt)
  · exact Prod.Lex.toLex_le_toLex.2 (Or.inr ⟨heq, hrank⟩)

theorem timeKey_le_of_key_le {x y : Entry} (h : x.key ≤ y.key) :
    timeKey x.timestamp ≤ timeKey y.timestamp := by
  rcases Prod.Lex.toLex_le_toLex.1 h with hlt | ⟨heq, _⟩
  · exact le_of_lt hlt
  · exact le_of_eq heq

theorem key_le_of_before {x y : Entry} (h : before x.timestamp y.timestamp = true) :
    x.key ≤ y.key :=
  Prod.Lex.toLex_le_toLex.2 (Or.inl ((before_iff _ _).1 h))

theorem key_le_of_not_before {x y : Entry} (h : before y.timestamp x.timestamp ≠ true)
    (hrank : x.kind.rank ≤ y.kind.rank) : x.key ≤ y.key := by
  rw [Ne, before_iff, not_lt] at h
  exact key_le_of_timeKey_le h hrank

/-! ## The selection takes a least head -/

def heads (alloc : Option AllocRecord) (sample : Option SampleRecord)
    (mig : Option MigrationRecord) : Log → Option Entry
  | .alloc => alloc.map .alloc
  | .sample => sample.map .sample
  | .migration => mig.map .migration

theorem migrationOr_spec {alloc : Option AllocRecord} {sample : Option SampleRecord}
    {mig : Option MigrationRecord} {x : Entry} (hx : heads alloc sample mig x.kind = some x) :
    heads alloc sample mig (migrationOr mig x).kind = some (migrationOr mig x) ∧
      (migrationOr mig x).key ≤ x.key ∧
      ∀ y ∈ heads alloc sample mig .migration, (migrationOr mig x).key ≤ y.key := by
  unfold migrationOr
  split
  · rename_i m hm
    rcases Option.filter_eq_some_iff.1 hm with ⟨rfl, hbefore⟩
    refine ⟨rfl, key_le_of_before hbefore, ?_⟩
    intro y hy
    obtain rfl : Entry.migration m = y := Option.some.inj hy
    exact le_refl _
  · rename_i hm
    refine ⟨hx, le_refl _, ?_⟩
    intro y hy
    rcases Option.map_eq_some_iff.1 hy with ⟨m, hsome, rfl⟩
    refine key_le_of_not_before ?_ ?_
    · exact Option.filter_eq_none_iff.1 hm m hsome
    · cases x <;> simp [Entry.kind, Log.rank]

/-- A head that is least of the allocation and the sample, and then against the migration. -/
theorem migrationOr_least {alloc : Option AllocRecord} {sample : Option SampleRecord}
    {mig : Option MigrationRecord} {x : Entry} (hx : heads alloc sample mig x.kind = some x)
    (halloc : ∀ a ∈ alloc, x.key ≤ (Entry.alloc a).key)
    (hsample : ∀ e ∈ sample, x.key ≤ (Entry.sample e).key) :
    heads alloc sample mig (migrationOr mig x).kind = some (migrationOr mig x) ∧
      ∀ j, ∀ y ∈ heads alloc sample mig j, (migrationOr mig x).key ≤ y.key := by
  rcases migrationOr_spec hx with ⟨hhead, hle, hmig⟩
  refine ⟨hhead, ?_⟩
  intro j y hy
  cases j with
  | alloc =>
      rcases Option.map_eq_some_iff.1 hy with ⟨a, ha, rfl⟩
      exact hle.trans (halloc a ha)
  | sample =>
      rcases Option.map_eq_some_iff.1 hy with ⟨e, he, rfl⟩
      exact hle.trans (hsample e he)
  | migration => exact hmig y hy

theorem select_spec {alloc : Option AllocRecord} {sample : Option SampleRecord}
    {mig : Option MigrationRecord} {x : Entry} (h : select alloc sample mig = some x) :
    heads alloc sample mig x.kind = some x ∧
      ∀ j, ∀ y ∈ heads alloc sample mig j, x.key ≤ y.key := by
  cases alloc with
  | some a =>
      simp only [select] at h
      split at h
      · -- a sample before the allocation
        rename_i e he
        rcases Option.filter_eq_some_iff.1 he with ⟨rfl, hbefore⟩
        obtain rfl : migrationOr mig (.sample e) = x := Option.some.inj h
        have hx : heads (some a) (some e) mig (Entry.sample e).kind = some (.sample e) := rfl
        refine migrationOr_least hx ?_ ?_
        · rintro a' ⟨⟩
          exact key_le_of_before hbefore
        · rintro e' ⟨⟩
          exact le_refl _
      · -- no sample, or the allocation goes first
        rename_i he
        obtain rfl : migrationOr mig (.alloc a) = x := Option.some.inj h
        have hx : heads (some a) sample mig (Entry.alloc a).kind = some (.alloc a) := rfl
        refine migrationOr_least hx ?_ ?_
        · rintro a' ⟨⟩
          exact le_refl _
        · intro e hsome
          refine key_le_of_not_before ?_ (Nat.zero_le _)
          exact Option.filter_eq_none_iff.1 he e hsome
  | none =>
      cases sample with
      | some e =>
          obtain rfl : migrationOr mig (.sample e) = x := Option.some.inj h
          have hx : heads none (some e) mig (Entry.sample e).kind = some (.sample e) := rfl
          refine migrationOr_least hx ?_ ?_
          · rintro a ⟨⟩
          · rintro e' ⟨⟩
            exact le_refl _
      | none =>
          -- only migrations are left
          obtain ⟨m, rfl⟩ : ∃ m, mig = some m := by
            cases mig with
            | some m => exact ⟨m, rfl⟩
            | none => cases h
          obtain rfl : Entry.migration m = x := Option.some.inj h
          refine ⟨rfl, ?_⟩
          intro j y hy
          cases j with
          | alloc => cases hy
          | sample => cases hy
          | migration =>
              obtain rfl : Entry.migration m = y := Option.some.inj hy
              exact le_refl _

theorem select_eq_none {alloc : Option AllocRecord} {sample : Option SampleRecord}
    {mig : Option MigrationRecord} (h : select alloc sample mig = none) :
    alloc = none ∧ sample = none ∧ mig = none := by
  cases alloc with
  | some alloc =>
      simp only [select] at h
      split at h <;> cases h
  | none =>
      cases sample with
      | some sample => cases h
      | none =>
          cases mig with
          | some mig => cases h
          | none => exact ⟨rfl, rfl, rfl⟩

/-! ## One round is one step of the merge -/

/-- The records that wait to be printed. -/
def pending (s : State) : Log → List Entry
  | .alloc => (s.allocs.drop s.allocIndx).map .alloc
  | .sample => (s.samples.drop s.sampleIndx).map .sample
  | .migration => (s.migs.drop s.migIndx).map .migration

theorem head?_pending (s : State) (j : Log) : (pending s j).head? =
    heads s.allocs[s.allocIndx]? s.samples[s.sampleIndx]? s.migs[s.migIndx]? j := by
  cases j <;> simp [pending, heads]

/-- Printing takes a record off its list.  What it rewrites is behind the cursor. -/
theorem pending_print (s : State) (x : Entry) :
    pending (s.print x) = Function.update (pending s) x.kind (pending s x.kind).tail := by
  funext j
  cases x <;> cases j <;> simp [pending, State.print, Entry.kind, List.drop_set_of_lt]

theorem print_out (s : State) (x : Entry) : (s.print x).out = s.out ++ [x.line s.start] := by
  cases x <;> rfl

@[simp] theorem print_start (s : State) (x : Entry) : (s.print x).start = s.start := by
  cases x <;> rfl

/-- The records in the order of printing: sorted by time, ties by rank. -/
abbrev Ahead (x y : Entry) : Prop :=
  x.key ≤ y.key

instance : IsTrans Entry Ahead :=
  ⟨fun _ _ _ hxy hyz => le_trans hxy hyz⟩

/-- What has been printed, as records that were taken off the lists. -/
structure Printed (input : Log → List Entry) (start : Timespec) (s : State) : Prop where
  start_eq : s.start = start
  merged : ∃ entries, s.out = entries.map (Entry.line start) ∧
    Merged Entry.kind Ahead input entries (pending s)

def remaining (s : State) : Nat :=
  (pending s .alloc).length + (pending s .sample).length + (pending s .migration).length

theorem remaining_print {s : State} {x : Entry} (hx : (pending s x.kind).head? = some x) :
    remaining (s.print x) < remaining s := by
  rcases List.head?_eq_some_iff.1 hx with ⟨rest, hrest⟩
  have hlen : (pending s x.kind).length = rest.length + 1 := by
    rw [hrest, List.length_cons]
  rw [remaining, remaining, pending_print, hrest, List.tail_cons]
  cases x <;> simp [Entry.kind] at hlen ⊢ <;> omega

namespace Printed

variable {input : Log → List Entry} {start : Timespec} {s s' : State}

theorem iteration (h : Printed input start s) (hinput : ∀ i, (input i).Pairwise Ahead)
    (hs' : PrintLog.iteration s = some s') :
    Printed input start s' ∧ remaining s' < remaining s := by
  rcases Option.map_eq_some_iff.1 hs' with ⟨x, hselect, rfl⟩
  rcases select_spec hselect with ⟨hhead, hleast⟩
  -- The records under the cursors are the heads of the lists that wait.
  simp only [← head?_pending] at hhead hleast
  rcases h.merged with ⟨entries, hout, hmerged⟩
  rcases List.head?_eq_some_iff.1 hhead with ⟨rest, hrest⟩
  refine ⟨⟨?_, entries ++ [x], ?_, ?_⟩, remaining_print hhead⟩
  · rw [print_start, h.start_eq]
  · rw [print_out, hout, h.start_eq]
    simp
  · rw [pending_print, hrest, List.tail_cons]
    exact hmerged.emit hinput hrest fun j _ => hleast j

theorem pending_eq_nil (hs : PrintLog.iteration s = none) (i : Log) : pending s i = [] := by
  rcases select_eq_none (Option.map_eq_none_iff.1 hs) with ⟨halloc, hsample, hmig⟩
  rw [← List.head?_eq_none_iff, head?_pending, halloc, hsample, hmig]
  cases i <;> rfl

end Printed

/-! ## The start -/

/-- Nanoseconds below a second. -/
def ValidTime (t : Timespec) : Prop :=
  0 ≤ t.tvNsec.toInt ∧ t.tvNsec.toInt < 1000000000

instance : DecidablePred ValidTime :=
  fun _ => inferInstanceAs (Decidable (_ ∧ _))

theorem timeKey_injective {t u : Timespec} (h : timeKey t = timeKey u) : t = u := by
  rcases t with ⟨tsec, tnsec⟩
  rcases u with ⟨usec, unsec⟩
  simpa [timeKey, BitVec.toInt_inj] using h

theorem updateStart_le (start : Timespec) (first : Option Timespec) :
    timeKey (updateStart start first) ≤ timeKey start ∧
      ∀ t ∈ first, timeKey (updateStart start first) ≤ timeKey t := by
  cases first with
  | none => simp [updateStart]
  | some t =>
      by_cases hbefore : before t start = true
      · have hlt := (before_iff t start).1 hbefore
        simpa [updateStart, hbefore] using hlt.le
      · have hle : timeKey start ≤ timeKey t := by
          rwa [before_iff, not_lt] at hbefore
        simpa [updateStart, hbefore] using hle

theorem updateStart_cases (start : Timespec) (first : Option Timespec) :
    updateStart start first = start ∨ updateStart start first ∈ first := by
  cases first with
  | none => exact Or.inl rfl
  | some t =>
      by_cases hbefore : before t start = true
      · simp [updateStart, hbefore]
      · simp [updateStart, hbefore]

/-- The minimum over the first records of several lists. -/
theorem foldl_updateStart_le (firsts : List (Option Timespec)) (start : Timespec) :
    timeKey (firsts.foldl updateStart start) ≤ timeKey start ∧
      ∀ first ∈ firsts, ∀ t ∈ first, timeKey (firsts.foldl updateStart start) ≤ timeKey t := by
  induction firsts generalizing start with
  | nil => simp
  | cons first firsts ih =>
      rcases updateStart_le start first with ⟨hstart, hfirst⟩
      rcases ih (updateStart start first) with ⟨hle, hrest⟩
      refine ⟨hle.trans hstart, ?_⟩
      intro first' hmem t ht
      rcases List.mem_cons.1 hmem with rfl | hmem
      · exact hle.trans (hfirst t ht)
      · exact hrest first' hmem t ht

theorem foldl_updateStart_cases (firsts : List (Option Timespec)) (start : Timespec) :
    firsts.foldl updateStart start = start ∨
      ∃ first ∈ firsts, firsts.foldl updateStart start ∈ first := by
  induction firsts generalizing start with
  | nil => exact Or.inl rfl
  | cons first firsts ih =>
      rcases ih (updateStart start first) with hsame | ⟨first', hmem, hfirst'⟩
      · rw [List.foldl_cons, hsame]
        rcases updateStart_cases start first with hstart | hfirst
        · exact Or.inl hstart
        · exact Or.inr ⟨first, List.mem_cons_self, hfirst⟩
      · exact Or.inr ⟨first', List.mem_cons_of_mem _ hmem, hfirst'⟩

/-- No record with valid nanoseconds is as late as the initial value of `start`. -/
theorem timeKey_lt_max {t : Timespec} (ht : ValidTime t) :
    timeKey t < timeKey ⟨LONG_MAX, LONG_MAX⟩ := by
  have hmax : LONG_MAX.toInt = 2 ^ 63 - 1 := by decide
  have hsec : t.tvSec.toInt < 2 ^ 63 := BitVec.toInt_lt
  rw [timeKey, timeKey, Prod.Lex.toLex_lt_toLex]
  rcases ht with ⟨_, hnsec⟩
  simp only [hmax]
  omega

/-! ## The printed time -/

def nanos (t : Timespec) : ℤ :=
  t.tvSec.toInt * 1000000000 + t.tvNsec.toInt

/-- The time between two records, in nanoseconds. -/
def elapsed (start t : Timespec) : ℤ :=
  nanos t - nanos start

theorem printTime_spec {start t : Timespec} (hstart : ValidTime start) (ht : ValidTime t)
    (hle : timeKey start ≤ timeKey t) :
    0 ≤ elapsed start t ∧
      (printTime start t).2.tvNsec.toInt = elapsed start t % 1000000000 ∧
      (printTime start t).2.tvSec.toInt = (elapsed start t / 1000000000).bmod (2 ^ 64) := by
  rcases hstart with ⟨hstart0, hstart1⟩
  rcases ht with ⟨ht0, ht1⟩
  rw [timeKey, timeKey, Prod.Lex.toLex_le_toLex] at hle
  simp only at hle
  by_cases hborrow : t.tvNsec.toInt < start.tvNsec.toInt
  · -- a second is borrowed: the record is in a later second than the start
    have hnsec : elapsed start t % 1000000000 =
        t.tvNsec.toInt + 1000000000 - start.tvNsec.toInt := by
      simp only [elapsed, nanos]
      omega
    have hsec : elapsed start t / 1000000000 = t.tvSec.toInt - 1 - start.tvSec.toInt := by
      simp only [elapsed, nanos]
      omega
    have hprinted : (printTime start t).2 =
        ⟨t.tvSec - 1 - start.tvSec, t.tvNsec + 1000000000 - start.tvNsec⟩ := by
      simp [printTime, BitVec.slt_iff_toInt_lt, hborrow]
    have hmachine : (t.tvNsec + 1000000000 - start.tvNsec).toInt =
        (t.tvNsec.toInt + 1000000000 - start.tvNsec.toInt).bmod (2 ^ 64) := by
      simp [BitVec.toInt_sub, BitVec.toInt_add]
    rw [hprinted, hnsec, hsec]
    refine ⟨?_, ?_, ?_⟩
    · simp only [elapsed, nanos]
      omega
    · rw [hmachine]
      exact Int.bmod_eq_of_le (by omega) (by omega)
    · simp [BitVec.toInt_sub]
  · have hnsec : elapsed start t % 1000000000 = t.tvNsec.toInt - start.tvNsec.toInt := by
      simp only [elapsed, nanos]
      omega
    have hsec : elapsed start t / 1000000000 = t.tvSec.toInt - start.tvSec.toInt := by
      simp only [elapsed, nanos]
      omega
    have hprinted : (printTime start t).2 =
        ⟨t.tvSec - start.tvSec, t.tvNsec - start.tvNsec⟩ := by
      simp [printTime, BitVec.slt_iff_toInt_lt, hborrow]
    rw [hprinted, hnsec, hsec]
    refine ⟨?_, ?_, ?_⟩
    · simp only [elapsed, nanos]
      omega
    · rw [BitVec.toInt_sub]
      exact Int.bmod_eq_of_le (by omega) (by omega)
    · exact BitVec.toInt_sub

/-- Between times that are not negative there are less than 2^63 seconds. -/
theorem elapsed_fits {start t : Timespec} (hstart : ValidTime start) (ht : ValidTime t)
    (hpos : 0 ≤ start.tvSec.toInt) : elapsed start t / 1000000000 < 2 ^ 63 := by
  have hsec : t.tvSec.toInt < 2 ^ 63 := BitVec.toInt_lt
  rcases hstart with ⟨hstart0, _⟩
  rcases ht with ⟨_, ht1⟩
  simp only [elapsed, nanos]
  omega

/-- The seconds are right exactly if they fit into a `long`. -/
theorem bmod_eq_iff_fits {q : ℤ} (h0 : 0 ≤ q) : q.bmod (2 ^ 64) = q ↔ q < 2 ^ 63 := by
  constructor
  · intro heq
    have hlt : q.bmod (2 ^ 64) < ((2 ^ 64 : Nat) + 1) / 2 := Int.bmod_lt (by decide)
    rw [heq] at hlt
    omega
  · intro hlt
    exact Int.bmod_eq_of_le (by omega) (by omega)

/-! ## Three ordered files -/

/-- The records of one file: in the order of time, the nanoseconds below a second. -/
structure Ordered {α : Type*} (timestamp : α → Timespec) (records : List α) : Prop where
  sorted : records.Pairwise fun x y => timeKey (timestamp x) ≤ timeKey (timestamp y)
  valid : ∀ x ∈ records, ValidTime (timestamp x)

theorem Ordered.entries {α : Type*} {timestamp : α → Timespec} {records : List α}
    (h : Ordered timestamp records) {entry : α → Entry} {n : Nat}
    (htime : ∀ x, (entry x).timestamp = timestamp x) (hrank : ∀ x, (entry x).kind.rank = n) :
    (records.map entry).Pairwise Ahead ∧ ∀ x ∈ records.map entry, ValidTime x.timestamp := by
  constructor
  · refine List.pairwise_map.2 (h.sorted.imp ?_)
    intro x y hxy
    refine key_le_of_timeKey_le ?_ ?_
    · rwa [htime, htime]
    · rw [hrank, hrank]
  · intro x hx
    rcases List.mem_map.1 hx with ⟨event, hevent, rfl⟩
    rw [htime]
    exact h.valid event hevent

section Files

variable {allocs : List AllocRecord} {samples : List SampleRecord} {migs : List MigrationRecord}

/-- The three files before the first round. -/
abbrev files (allocs : List AllocRecord) (samples : List SampleRecord)
    (migs : List MigrationRecord) : Log → List Entry :=
  pending (State.init allocs samples migs)

theorem files_ordered (hallocs : Ordered AllocRecord.timestamp allocs)
    (hsamples : Ordered SampleRecord.timestamp samples)
    (hmigs : Ordered MigrationRecord.timestamp migs) (i : Log) :
    (files allocs samples migs i).Pairwise Ahead ∧
      ∀ x ∈ files allocs samples migs i, ValidTime x.timestamp := by
  cases i with
  | alloc => exact hallocs.entries (fun _ => rfl) fun _ => rfl
  | sample => exact hsamples.entries (fun _ => rfl) fun _ => rfl
  | migration => exact hmigs.entries (fun _ => rfl) fun _ => rfl

def firsts (allocs : List AllocRecord) (samples : List SampleRecord)
    (migs : List MigrationRecord) : List (Option Timespec) :=
  [allocs.head?.map AllocRecord.timestamp, samples.head?.map SampleRecord.timestamp,
    migs.head?.map MigrationRecord.timestamp]

theorem mem_firsts {first : Option Timespec} : first ∈ firsts allocs samples migs ↔
    ∃ i, (files allocs samples migs i).head?.map Entry.timestamp = first := by
  constructor
  · intro h
    simp only [firsts, List.mem_cons, List.not_mem_nil, or_false] at h
    rcases h with rfl | rfl | rfl
    · exact ⟨.alloc, by cases allocs <;> rfl⟩
    · exact ⟨.sample, by cases samples <;> rfl⟩
    · exact ⟨.migration, by cases migs <;> rfl⟩
  · rintro ⟨i, rfl⟩
    cases i with
    | alloc => cases allocs <;> simp [firsts, pending, State.init, Entry.timestamp]
    | sample => cases samples <;> simp [firsts, pending, State.init, Entry.timestamp]
    | migration => cases migs <;> simp [firsts, pending, State.init, Entry.timestamp]

/-- `start` is not after any record. -/
theorem startOf_le {i : Log} (hi : (files allocs samples migs i).Pairwise Ahead) {x : Entry}
    (hx : x ∈ files allocs samples migs i) :
    timeKey (startOf allocs samples migs) ≤ timeKey x.timestamp := by
  rcases foldl_updateStart_le (firsts allocs samples migs) ⟨LONG_MAX, LONG_MAX⟩ with ⟨_, hle⟩
  cases hfile : files allocs samples migs i with
  | nil => simp [hfile] at hx
  | cons head rest =>
      have hhead : timeKey (startOf allocs samples migs) ≤ timeKey head.timestamp :=
        hle (some head.timestamp) (mem_firsts.2 ⟨i, by rw [hfile]; rfl⟩) _ rfl
      rw [hfile] at hx hi
      rcases List.mem_cons.1 hx with rfl | hrest
      · exact hhead
      · exact hhead.trans (timeKey_le_of_key_le ((List.pairwise_cons.1 hi).1 x hrest))

/-- `start` is the timestamp of a record, if there is one. -/
theorem startOf_mem {i : Log} (hi : (files allocs samples migs i).Pairwise Ahead) {x : Entry}
    (hx : x ∈ files allocs samples migs i) (hvalid : ValidTime x.timestamp) :
    ∃ j, ∃ y ∈ files allocs samples migs j, y.timestamp = startOf allocs samples migs := by
  have hcases : startOf allocs samples migs = ⟨LONG_MAX, LONG_MAX⟩ ∨
      ∃ first ∈ firsts allocs samples migs, startOf allocs samples migs ∈ first :=
    foldl_updateStart_cases (firsts allocs samples migs) ⟨LONG_MAX, LONG_MAX⟩
  rcases hcases with hmax | ⟨first, hmem, hfirst⟩
  · -- The initial value would be earlier than `x`.
    have hle := startOf_le hi hx
    rw [hmax] at hle
    exact absurd hle (not_le.2 (timeKey_lt_max hvalid))
  · rcases mem_firsts.1 hmem with ⟨j, rfl⟩
    rcases Option.map_eq_some_iff.1 hfirst with ⟨y, hy, hstart⟩
    exact ⟨j, y, List.mem_of_mem_head? hy, hstart⟩

/-- The loop returns, with the files merged. -/
theorem printLog_returns (hfiles : ∀ i, (files allocs samples migs i).Pairwise Ahead) :
    ∃ entries : List Entry,
      (∀ fuel, allocs.length + samples.length + migs.length < fuel →
        printLog fuel allocs samples migs =
          some (entries.map (Entry.line (startOf allocs samples migs)))) ∧
      entries.Pairwise Ahead ∧
      ∀ i, entries.filter (fun x => x.kind = i) = files allocs samples migs i := by
  have hinit : Printed (files allocs samples migs) (startOf allocs samples migs)
      (State.init allocs samples migs) := ⟨rfl, [], rfl, Merged.init⟩
  rcases loop_total (fun s s' hs hs' => hs.iteration hfiles hs') hinit with
    ⟨s, hloop, hprinted, hdone⟩
  rcases hprinted.merged with ⟨entries, hout, hmerged⟩
  refine ⟨entries, ?_, hmerged.finished (Printed.pending_eq_nil hdone)⟩
  intro fuel hfuel
  have hremaining : remaining (State.init allocs samples migs) =
      allocs.length + samples.length + migs.length := by
    simp [remaining, pending, State.init]
  rw [printLog, hloop fuel (by omega), Option.map_some, hout]

/-- In a sorted list the first record has the earliest time. -/
theorem timestamp_head {entries : List Entry} (hsorted : entries.Pairwise Ahead)
    {start : Timespec} (hle : ∀ x ∈ entries, timeKey start ≤ timeKey x.timestamp) {y first : Entry}
    (hy : y ∈ entries) (hstart : y.timestamp = start) (hfirst : entries.head? = some first) :
    first.timestamp = start := by
  rcases List.head?_eq_some_iff.1 hfirst with ⟨rest, rfl⟩
  have hfirst_le : timeKey first.timestamp ≤ timeKey y.timestamp := by
    rcases List.mem_cons.1 hy with rfl | hrest
    · exact le_refl _
    · exact timeKey_le_of_key_le ((List.pairwise_cons.1 hsorted).1 y hrest)
  rw [hstart] at hfirst_le
  exact timeKey_injective (le_antisymm hfirst_le (hle first List.mem_cons_self))

/-- The loop prints every record once, each file in its order, sorted by time with allocations
before samples before migrations.  The times count from the first record printed; the nanoseconds
are always right, the seconds exactly if their difference fits into a `long`, which it does for times
that are not negative. -/
theorem printLog_merges (hallocs : Ordered AllocRecord.timestamp allocs)
    (hsamples : Ordered SampleRecord.timestamp samples)
    (hmigs : Ordered MigrationRecord.timestamp migs) :
    ∃ (start : Timespec) (entries : List Entry),
      (∀ fuel, allocs.length + samples.length + migs.length < fuel →
        printLog fuel allocs samples migs = some (entries.map (Entry.line start))) ∧
      entries.filter (fun x => x.kind = .alloc) = allocs.map .alloc ∧
      entries.filter (fun x => x.kind = .sample) = samples.map .sample ∧
      entries.filter (fun x => x.kind = .migration) = migs.map .migration ∧
      entries.Pairwise (fun x y => x.key ≤ y.key) ∧
      (∀ first ∈ entries.head?, first.timestamp = start) ∧
      ∀ x ∈ entries,
        0 ≤ elapsed start x.timestamp ∧
        (x.line start).time.tvNsec.toInt = elapsed start x.timestamp % 1000000000 ∧
        ((x.line start).time.tvSec.toInt = elapsed start x.timestamp / 1000000000 ↔
          elapsed start x.timestamp / 1000000000 < 2 ^ 63) ∧
        (0 ≤ start.tvSec.toInt → elapsed start x.timestamp / 1000000000 < 2 ^ 63) := by
  have hfiles := files_ordered hallocs hsamples hmigs
  rcases printLog_returns fun i => (hfiles i).1 with ⟨entries, hprint, hsorted, hparts⟩
  -- what is printed comes from the files, and all of it
  have hmem : ∀ x ∈ entries, x ∈ files allocs samples migs x.kind := by
    intro x hx
    rw [← hparts x.kind]
    exact List.mem_filter.2 ⟨hx, by simp⟩
  have hvalid : ∀ x ∈ entries, ValidTime x.timestamp :=
    fun x hx => (hfiles x.kind).2 x (hmem x hx)
  have hle : ∀ x ∈ entries, timeKey (startOf allocs samples migs) ≤ timeKey x.timestamp :=
    fun x hx => startOf_le (hfiles x.kind).1 (hmem x hx)
  have hstart : ∀ x ∈ entries, ∃ y ∈ entries, y.timestamp = startOf allocs samples migs := by
    intro x hx
    rcases startOf_mem (hfiles x.kind).1 (hmem x hx) (hvalid x hx) with ⟨j, y, hy, heq⟩
    rw [← hparts j] at hy
    exact ⟨y, (List.mem_filter.1 hy).1, heq⟩
  refine ⟨startOf allocs samples migs, entries, hprint, hparts .alloc, hparts .sample,
    hparts .migration, hsorted, ?_, ?_⟩
  · intro first hfirst
    rcases hstart first (List.mem_of_mem_head? hfirst) with ⟨y, hy, heq⟩
    exact timestamp_head hsorted hle hy heq hfirst
  · intro x hx
    rcases hstart x hx with ⟨y, hy, heq⟩
    have hstartValid : ValidTime (startOf allocs samples migs) := heq ▸ hvalid y hy
    rcases printTime_spec hstartValid (hvalid x hx) (hle x hx) with ⟨hpos, hnsec, hsec⟩
    rw [Entry.line_time, hsec]
    exact ⟨hpos, hnsec, bmod_eq_iff_fits (by omega), elapsed_fits hstartValid (hvalid x hx)⟩

end Files

-- Three records at one time come in the order of the kinds; for the last one a second is borrowed.
example : (printLog 5 [⟨0, 0, 0x1000, 0x40, ⟨5, 900000000⟩⟩]
    [⟨0x1008, fun _ => 0, ⟨5, 900000000⟩⟩, ⟨0x1010, fun _ => 0, ⟨7, 100000000⟩⟩]
    [⟨0x1000, 2, 0x1000, ⟨5, 900000000⟩⟩]) =
    some [⟨⟨0, 0⟩, .allocated 0x40 0x1000⟩, ⟨⟨0, 0⟩, .sampled 0x1008⟩,
      ⟨⟨0, 0⟩, .migrated 0x1000 0x1000 (some "migrated slow -> fast")⟩,
      ⟨⟨1, 200000000⟩, .sampled 0x1010⟩] := by
  decide

theorem printLog_merges_ties :
    ∃ (start : Timespec) (entries : List Entry),
      printLog 5 [⟨0, 0, 0x1000, 0x40, ⟨5, 900000000⟩⟩]
        [⟨0x1008, fun _ => 0, ⟨5, 900000000⟩⟩, ⟨0x1010, fun _ => 0, ⟨7, 100000000⟩⟩]
        [⟨0x1000, 2, 0x1000, ⟨5, 900000000⟩⟩] = some (entries.map (Entry.line start)) ∧
      entries.Pairwise (fun x y => x.key ≤ y.key) ∧
      ∀ first ∈ entries.head?, first.timestamp = start := by
  have hallocs : Ordered AllocRecord.timestamp [⟨0, 0, 0x1000, 0x40, ⟨5, 900000000⟩⟩] :=
    ⟨by decide, by decide⟩
  have hsamples : Ordered SampleRecord.timestamp
      [⟨0x1008, fun _ => 0, ⟨5, 900000000⟩⟩, ⟨0x1010, fun _ => 0, ⟨7, 100000000⟩⟩] :=
    ⟨by decide, by decide⟩
  have hmigs : Ordered MigrationRecord.timestamp [⟨0x1000, 2, 0x1000, ⟨5, 900000000⟩⟩] :=
    ⟨by decide, by decide⟩
  rcases printLog_merges hallocs hsamples hmigs with
    ⟨start, entries, hprint, _, _, _, hsorted, hfirst, _⟩
  exact ⟨start, entries, hprint 5 (by decide), hsorted, hfirst⟩

/-- A record one second before the epoch and one at the last second: 2^63 seconds lie between them,
and -2^63 is printed. -/
theorem printLog_wraps :
    Ordered AllocRecord.timestamp
        [⟨0, 0, 0x1000, 0x40, ⟨-1, 0⟩⟩, ⟨2, 0x1000, 0, 0, ⟨LONG_MAX, 0⟩⟩] ∧
      printLog 3 [⟨0, 0, 0x1000, 0x40, ⟨-1, 0⟩⟩, ⟨2, 0x1000, 0, 0, ⟨LONG_MAX, 0⟩⟩] [] [] =
        some [⟨⟨0, 0⟩, .allocated 0x40 0x1000⟩, ⟨⟨0x8000000000000000, 0⟩, .freed 0x1000⟩] ∧
      (0x8000000000000000 : BitVec 64).toInt = -2 ^ 63 ∧
      elapsed ⟨-1, 0⟩ ⟨LONG_MAX, 0⟩ = 2 ^ 63 * 1000000000 := by
  refine ⟨⟨by decide, by decide⟩, by decide, by decide, by decide⟩

end PrintLog
end Logger
end Shambles
