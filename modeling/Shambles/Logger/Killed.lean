import Shambles.Logger.Decode

/-!
# Killed — the log file of a process that was killed

The files are shared mappings, so that what has been stored is in the file whatever happens to the
process.  A call stores the count first and the record behind it.  `killed` is the file when the
process ends inside a call: before the count is stored (a change of window does not touch the
content of the file), or with the count stored and some bytes of the record.

A record is complete when all its bytes, the timestamp last, have been stored.  In between the count
is already one ahead.
-/

namespace Shambles
namespace Logger

open Layout MappedFile

/-- How far a call has got. -/
inductive KillPoint
  | beforeCount
  /-- The count is stored, and so many bytes of the record. -/
  | inRecord (written : Nat)
  deriving DecidableEq, Repr

section Kill

variable {ε ρ : Type} (F : Format ε ρ)

def killed (s : State) (call : Call ε) : KillPoint → Option (Nat → Byte)
  | .beforeCount => some s.file
  | .inRecord written =>
      let s₁ := ready s call
      match storeBytes WINDOW s₁.maps s₁.file s₁.cntFile (countBytes (s₁.cnt + 1)) with
      | none => none
      | some file =>
          storeBytes WINDOW s₁.maps file s₁.ptr ((bytesOf (F.fields call.event)).take written)

/-- All stores of the call have been made. -/
def Finished (e : ε) : KillPoint → Prop
  | .beforeCount => False
  | .inRecord written => (bytesOf (F.fields e)).length ≤ written

instance (e : ε) : DecidablePred (Finished F e)
  | .beforeCount => isFalse id
  | .inRecord _ => inferInstanceAs (Decidable (_ ≤ _))

/-- The number of complete records when `n` calls have returned. -/
def completeRecords (n : Nat) (e : ε) (point : KillPoint) : Nat :=
  if Finished F e point then n + 1 else n

/-- A finished call is the call of the model. -/
theorem killed_finished (s : State) (call : Call ε) :
    killed F s call (.inRecord (bytesOf (F.fields call.event)).length) =
      (log F s call).map State.file := by
  rw [log_eq_ready]
  simp only [killed, writeRecord, List.take_length]
  cases storeBytes WINDOW (ready s call).maps (ready s call).file (ready s call).cntFile
      (countBytes ((ready s call).cnt + 1)) with
  | none => rfl
  | some file =>
      simp only
      cases storeBytes WINDOW (ready s call).maps file (ready s call).ptr
          (bytesOf (F.fields call.event)) with
      | none => rfl
      | some file' => rfl

variable {F} {base : Nat} {es : List ε} {s : State}

/-- What `print-log` takes for the number of records. -/
theorem readCount_killed (h : Inv F base es s) {call : Call ε} (hen : Enabled s call)
    (point : KillPoint) :
    ∃ file, killed F s call point = some file ∧
      readCount file =
        (BitVec.ofNat 32 (if point = .beforeCount then es.length else es.length + 1)).toInt := by
  cases point with
  | beforeCount =>
      refine ⟨s.file, rfl, ?_⟩
      rw [readCount, h.holds.count, if_pos rfl]
  | inRecord written =>
      rcases h.ready hen with ⟨-, cur, k, pos, hat, hpos⟩
      have hbytes : ∀ x ∈ (bytesOf (F.fields call.event)).take written, x.1 < F.size :=
        fun x hx => bytesOf_fields_lt F call.event x (List.mem_of_mem_take hx)
      refine ⟨writeBytes (writeBytes (ready s call).file 0 (countBytes (es.length + 1)))
        ((es.length + 1) * F.size) ((bytesOf (F.fields call.event)).take written), ?_, ?_⟩
      · simp only [killed, hat.storeCount, hat.storeCell hpos hbytes]
      · rw [readCount, Holds.read_count F _ es.length hbytes, if_neg (by simp)]

end Kill

/-! ## The count as an `int` -/

theorem toInt_ofNat_lt (n : Nat) : (BitVec.ofNat 32 n).toInt < 2 ^ 31 := by
  simpa using BitVec.toInt_lt (x := BitVec.ofNat 32 n)

theorem toInt_ofNat_le (n : Nat) : (BitVec.ofNat 32 n).toInt ≤ n := by
  rcases Nat.lt_or_ge n (2 ^ 31) with hlt | hge
  · exact (toInt_ofNat_eq hlt).le
  · have hmax := toInt_ofNat_lt n
    omega

/-- One too many shows as long as the `int` has not overflown. -/
theorem toInt_ofNat_succ_le_iff (n : Nat) :
    (BitVec.ofNat 32 (n + 1)).toInt ≤ n ↔ 2 ^ 31 ≤ n + 1 := by
  have hmax := toInt_ofNat_lt (n + 1)
  constructor
  · intro hle
    by_contra hlt
    have hexact := toInt_ofNat_eq (not_le.1 hlt)
    omega
  · intro hge
    omega

/-! ## The three log files -/

/-- The file of a killed process counts complete records exactly if the process was not killed
between the store of the count and the last store of the record.  (A count that has passed
`INT_MAX` is negative.) -/
theorem killed_readable_iff (l : Log) {base : Nat} (hbase : WINDOW ∣ base)
    {calls : List (Call l.Event)} {s : State}
    (hrun : Run (system l.format) (loggerInit l.format base) calls s) {call : Call l.Event}
    (hen : Enabled s call) (point : KillPoint) :
    ∃ file, killed l.format s call point = some file ∧
      (readRecords l.format file).length = (readCount file).toNat ∧
      (readCount file ≤ completeRecords l.format calls.length call.event point ↔
        point = .beforeCount ∨ Finished l.format call.event point ∨ 2 ^ 31 ≤ calls.length + 1) := by
  have hinv := Inv.run hbase hrun
  rcases readCount_killed hinv hen point with ⟨file, hfile, hcount⟩
  rw [List.length_map] at hcount
  refine ⟨file, hfile, by simp [readRecords], ?_⟩
  rw [hcount, completeRecords]
  cases point with
  | beforeCount =>
      simpa [Finished] using toInt_ofNat_le calls.length
  | inRecord written =>
      have hlate : ¬ KillPoint.inRecord written = .beforeCount := by simp
      rw [if_neg hlate]
      by_cases hdone : Finished l.format call.event (.inRecord written)
      · rw [if_pos hdone]
        exact iff_of_true (toInt_ofNat_le _) (Or.inr (Or.inl hdone))
      · rw [if_neg hdone, toInt_ofNat_succ_le_iff]
        tauto

/-- The first migration of a file. -/
def firstMigration : Call MigrationEvent :=
  ⟨⟨.slow2fast, 0x7000, 4096, ⟨12, 34⟩⟩, 0⟩

/-- Killed after its last store. -/
theorem killed_readable_migration :
    ∃ file, killed migrationFormat (loggerInit migrationFormat 0x200000) firstMigration
        (.inRecord 36) = some file ∧ readCount file ≤ 1 := by
  have hdone : Finished migrationFormat firstMigration.event (.inRecord 36) := by decide
  have hen : (system migrationFormat).enabled (loggerInit migrationFormat 0x200000)
      firstMigration := by decide
  rcases killed_readable_iff .migration (by decide) Run.nil hen (.inRecord 36)
    with ⟨file, hfile, -, hiff⟩
  exact ⟨file, hfile, hiff.2 (Or.inr (Or.inl hdone))⟩

/-- Killed after the store of the count: `print-log` shows a record of zeros that nobody logged. -/
theorem killed_unreadable :
    ∃ file, killed migrationFormat (loggerInit migrationFormat 0x200000) firstMigration
        (.inRecord 0) = some file ∧
      readCount file = 1 ∧ completeRecords migrationFormat 0 firstMigration.event (.inRecord 0) = 0 ∧
      readRecords migrationFormat file = [⟨0, 0, 0, ⟨0, 0⟩⟩] :=
  ⟨_, rfl, by decide, by decide, by decide⟩

end Logger
end Shambles
