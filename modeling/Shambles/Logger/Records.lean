import Shambles.Jemalloc.LogAlloc
import Shambles.Logger.Model
import Shambles.Plugins.Migration

/-!
# Records — `Sample`, `AllocEvent` and `MigrationEvent`

The layouts of `logger.h` on a 64-bit machine, with what `logSample`, `logAlloc` and `logMigration`
store into a record and what `print-log.c` takes from it.  Each record is a `Format`: its fields lie
apart and inside the record, so that every field reads as it was stored.
-/

namespace Shambles
namespace Logger

open Layout

/-- `struct timespec` -/
structure Timespec where
  tvSec : BitVec 64
  tvNsec : BitVec 64
  deriving DecidableEq, Repr

def timeFields (offset : Nat) (t : Timespec) : List Field :=
  [⟨offset, 8, t.tvSec⟩, ⟨offset + 8, 8, t.tvNsec⟩]

def readTime (m : Nat → Byte) (offset : Nat) : Timespec :=
  ⟨read m offset 8, read m (offset + 8) 8⟩

/-- The arguments of `logSample` and the time.  `code` is what the pointer points to, if it is not
NULL; `flags` is not written. -/
structure SampleEvent where
  addr : BitVec 64
  code : Option (Fin 15 → Byte)
  flags : BitVec 16
  time : Timespec

/-- `Sample` -/
structure SampleRecord where
  addr : BitVec 64
  code : Fin 16 → Byte
  timestamp : Timespec

/-- The bytes that `memcpy` stores. -/
def codeFields : Option (Fin 15 → Byte) → List Field
  | some code => (List.finRange 15).map fun i : Fin 15 => ⟨8 + i.val, 1, code i⟩
  | none => []

/-- `code` of the record: the 15 bytes that were copied, zero elsewhere. -/
def codeRecord (code : Option (Fin 15 → Byte)) (i : Fin 16) : Byte :=
  match code with
  | some code => if h : i.val < 15 then code ⟨i, h⟩ else 0
  | none => 0

/-- The arguments of `logAlloc` and the time. -/
structure AllocEvent where
  type : Jemalloc.AllocEventType
  inPtr : BitVec 64
  outPtr : BitVec 64
  size : BitVec 64
  time : Timespec
  deriving DecidableEq, Repr

/-- `AllocEvent` of `logger.h`; `callsite` is neither written nor printed. -/
structure AllocRecord where
  type : BitVec 32
  inPtr : BitVec 64
  outPtr : BitVec 64
  size : BitVec 64
  timestamp : Timespec
  deriving DecidableEq, Repr

/-- The arguments of `logMigration` and the time. -/
structure MigrationEvent where
  dir : Plugins.Direction
  addr : BitVec 64
  size : BitVec 64
  time : Timespec
  deriving DecidableEq, Repr

/-- `MigrationEvent` of `logger.h`. -/
structure MigrationRecord where
  addr : BitVec 64
  dir : BitVec 32
  size : BitVec 64
  timestamp : Timespec
  deriving DecidableEq, Repr

/-- The enumeration constants of `AllocEventType`. -/
def typeCode : Jemalloc.AllocEventType → BitVec 32
  | .alloc => 0
  | .realloc => 1
  | .free => 2

/-- The enumeration constants of `Direction`. -/
def dirCode : Plugins.Direction → BitVec 32
  | .initFast => 0
  | .initSlow => 1
  | .slow2fast => 2
  | .fast2slow => 3

/-! ### `Sample` -/

def sampleFields (e : SampleEvent) : List Field :=
  ⟨0, 8, e.addr⟩ :: (codeFields e.code ++ timeFields 24 e.time)

def decodeSample (m : Nat → Byte) : SampleRecord :=
  ⟨read m 0 8, fun i => read m (8 + i) 1, readTime m 24⟩

theorem mem_codeFields {code : Option (Fin 15 → Byte)} {f : Field} (hf : f ∈ codeFields code) :
    8 ≤ f.offset ∧ f.offset + f.width ≤ 23 := by
  cases code with
  | none => simp [codeFields] at hf
  | some code =>
      rcases List.mem_map.1 hf with ⟨i, -, rfl⟩
      have hi := i.isLt
      exact ⟨by simp, by simp; omega⟩

theorem codeFields_apart (code : Option (Fin 15 → Byte)) :
    (codeFields code).Pairwise Field.Apart := by
  cases code with
  | none => exact List.Pairwise.nil
  | some code =>
      refine List.pairwise_map.2 ((List.pairwise_lt_finRange 15).imp ?_)
      intro i j hij
      left
      have hlt : i.val < j.val := hij
      show 8 + i.val + 1 ≤ 8 + j.val
      omega

theorem sampleFields_apart (e : SampleEvent) : (sampleFields e).Pairwise Field.Apart := by
  refine List.pairwise_cons.2 ⟨?_, List.pairwise_append.2 ⟨codeFields_apart e.code, ?_, ?_⟩⟩
  · intro f hf
    left
    show 0 + 8 ≤ f.offset
    rcases List.mem_append.1 hf with hf | hf
    · exact (mem_codeFields hf).1
    · simp [timeFields] at hf
      rcases hf with rfl | rfl <;> simp
  · simp [timeFields, Field.Apart]
  · intro f hf g hg
    left
    have hcode := mem_codeFields hf
    simp [timeFields] at hg
    rcases hg with rfl | rfl
    · show f.offset + f.width ≤ 24
      omega
    · show f.offset + f.width ≤ 32
      omega


/-- A byte of `code` that was not copied lies apart from every field. -/
theorem sampleFields_code_apart (e : SampleEvent) {i : Nat} (hi : i < 16)
    (hcode : e.code = none ∨ i = 15) :
    ∀ f ∈ sampleFields e, f.offset + f.width ≤ 8 + i ∨ 8 + i + 1 ≤ f.offset := by
  intro f hf
  rcases List.mem_cons.1 hf with rfl | hf
  · left
    simp
  · rcases List.mem_append.1 hf with hf | hf
    · rcases hcode with hnone | rfl
      · simp [hnone, codeFields] at hf
      · left
        exact (mem_codeFields hf).2
    · right
      simp [timeFields] at hf
      rcases hf with rfl | rfl
      · show 8 + i + 1 ≤ 24
        omega
      · show 8 + i + 1 ≤ 32
        omega

/-- `code` reads as the 15 bytes that were copied, if any, and zeros. -/
theorem read_code (e : SampleEvent) (i : Fin 16) :
    read (content (bytesOf (sampleFields e))) (8 + i) 1 = codeRecord e.code i := by
  cases hcode : e.code with
  | none => exact read_content_apart (sampleFields_code_apart e i.isLt (Or.inl hcode))
  | some code =>
      by_cases hi : i.val < 15
      · have hmem : (⟨8 + i.val, 1, code ⟨i, hi⟩⟩ : Field) ∈ sampleFields e := by
          refine List.mem_cons_of_mem _ (List.mem_append_left _ ?_)
          rw [hcode]
          exact List.mem_map.2 ⟨⟨i, hi⟩, List.mem_finRange _, rfl⟩
        have hread := read_content (sampleFields_apart e) hmem
        simpa [codeRecord, hi] using hread
      · -- the last byte of the array, which `memcpy` leaves out
        have hlast : i.val = 15 := by omega
        have hread := read_content_apart (sampleFields_code_apart e i.isLt (Or.inr hlast))
        simpa [codeRecord, hi] using hread

theorem readTime_content {fields : List Field} (hapart : fields.Pairwise Field.Apart)
    {offset : Nat} {t : Timespec} (ht : ∀ f ∈ timeFields offset t, f ∈ fields) :
    readTime (content (bytesOf fields)) offset = t := by
  have hread : ∀ f ∈ timeFields offset t,
      read (content (bytesOf fields)) f.offset f.width = f.value :=
    fun f hf => read_content hapart (ht f hf)
  have hsec : read (content (bytesOf fields)) offset 8 = t.tvSec :=
    hread ⟨offset, 8, t.tvSec⟩ (by simp [timeFields])
  have hnsec : read (content (bytesOf fields)) (offset + 8) 8 = t.tvNsec :=
    hread ⟨offset + 8, 8, t.tvNsec⟩ (by simp [timeFields])
  simp only [readTime, hsec, hnsec]

theorem readTime_congr {m m' : Nat → Byte} {size offset : Nat} (h : ∀ o < size, m o = m' o)
    (hle : offset + 16 ≤ size) : readTime m offset = readTime m' offset := by
  simp only [readTime]
  rw [read_congr_below h (by omega), read_congr_below h (by omega)]

def sampleFormat : Format SampleEvent SampleRecord where
  size := 64
  fields := sampleFields
  record := fun e => ⟨e.addr, codeRecord e.code, e.time⟩
  decode := decodeSample
  count_fits := by decide
  size_dvd := by decide
  fields_fit := by
    intro e f hf
    rcases List.mem_cons.1 hf with rfl | hf
    · simp
    · rcases List.mem_append.1 hf with hf | hf
      · have hcode := mem_codeFields hf
        omega
      · simp [timeFields] at hf
        rcases hf with rfl | rfl <;> simp
  decode_congr := by
    intro m m' h
    have hcode : ∀ i : Fin 16, read m (8 + i) 1 = read m' (8 + i) 1 :=
      fun i => read_congr_below h (by omega)
    simp only [decodeSample, hcode]
    rw [read_congr_below h (by decide), readTime_congr h (by decide)]
  decode_fields := by
    intro e
    have hread : ∀ f ∈ sampleFields e,
        read (content (bytesOf (sampleFields e))) f.offset f.width = f.value :=
      fun f hf => read_content (sampleFields_apart e) hf
    have haddr : read (content (bytesOf (sampleFields e))) 0 8 = e.addr :=
      hread ⟨0, 8, e.addr⟩ (by simp [sampleFields])
    have htime : readTime (content (bytesOf (sampleFields e))) 24 = e.time :=
      readTime_content (sampleFields_apart e) fun f hf => by simp [sampleFields, hf]
    simp only [decodeSample, haddr, htime, read_code]

/-! ### `AllocEvent` -/

def allocFields (e : AllocEvent) : List Field :=
  [⟨0, 4, typeCode e.type⟩, ⟨8, 8, e.inPtr⟩, ⟨16, 8, e.outPtr⟩, ⟨24, 8, e.size⟩] ++
    timeFields 112 e.time

def decodeAlloc (m : Nat → Byte) : AllocRecord :=
  ⟨read m 0 4, read m 8 8, read m 16 8, read m 24 8, readTime m 112⟩

theorem allocFields_apart (e : AllocEvent) : (allocFields e).Pairwise Field.Apart := by
  simp [allocFields, timeFields, Field.Apart]

def allocFormat : Format AllocEvent AllocRecord where
  size := 128
  fields := allocFields
  record := fun e => ⟨typeCode e.type, e.inPtr, e.outPtr, e.size, e.time⟩
  decode := decodeAlloc
  count_fits := by decide
  size_dvd := by decide
  fields_fit := by
    intro e
    simp [allocFields, timeFields]
  decode_congr := by
    intro m m' h
    simp only [decodeAlloc]
    rw [read_congr_below h (by decide), read_congr_below h (by decide),
      read_congr_below h (by decide), read_congr_below h (by decide), readTime_congr h (by decide)]
  decode_fields := by
    intro e
    have hread : ∀ f ∈ allocFields e,
        read (content (bytesOf (allocFields e))) f.offset f.width = f.value :=
      fun f hf => read_content (allocFields_apart e) hf
    have htype : read (content (bytesOf (allocFields e))) 0 4 = typeCode e.type :=
      hread ⟨0, 4, typeCode e.type⟩ (by simp [allocFields])
    have hin : read (content (bytesOf (allocFields e))) 8 8 = e.inPtr :=
      hread ⟨8, 8, e.inPtr⟩ (by simp [allocFields])
    have hout : read (content (bytesOf (allocFields e))) 16 8 = e.outPtr :=
      hread ⟨16, 8, e.outPtr⟩ (by simp [allocFields])
    have hsize : read (content (bytesOf (allocFields e))) 24 8 = e.size :=
      hread ⟨24, 8, e.size⟩ (by simp [allocFields])
    have htime : readTime (content (bytesOf (allocFields e))) 112 = e.time :=
      readTime_content (allocFields_apart e) fun f hf => by simp [allocFields, hf]
    simp only [decodeAlloc, htype, hin, hout, hsize, htime]

/-! ### `MigrationEvent` -/

/-- `dir` is stored before `addr`. -/
def migrationFields (e : MigrationEvent) : List Field :=
  [⟨8, 4, dirCode e.dir⟩, ⟨0, 8, e.addr⟩, ⟨16, 8, e.size⟩] ++ timeFields 24 e.time

def decodeMigration (m : Nat → Byte) : MigrationRecord :=
  ⟨read m 0 8, read m 8 4, read m 16 8, readTime m 24⟩

theorem migrationFields_apart (e : MigrationEvent) : (migrationFields e).Pairwise Field.Apart := by
  simp [migrationFields, timeFields, Field.Apart]

def migrationFormat : Format MigrationEvent MigrationRecord where
  size := 64
  fields := migrationFields
  record := fun e => ⟨e.addr, dirCode e.dir, e.size, e.time⟩
  decode := decodeMigration
  count_fits := by decide
  size_dvd := by decide
  fields_fit := by
    intro e
    simp [migrationFields, timeFields]
  decode_congr := by
    intro m m' h
    simp only [decodeMigration]
    rw [read_congr_below h (by decide), read_congr_below h (by decide),
      read_congr_below h (by decide), readTime_congr h (by decide)]
  decode_fields := by
    intro e
    have hread : ∀ f ∈ migrationFields e,
        read (content (bytesOf (migrationFields e))) f.offset f.width = f.value :=
      fun f hf => read_content (migrationFields_apart e) hf
    have haddr : read (content (bytesOf (migrationFields e))) 0 8 = e.addr :=
      hread ⟨0, 8, e.addr⟩ (by simp [migrationFields])
    have hdir : read (content (bytesOf (migrationFields e))) 8 4 = dirCode e.dir :=
      hread ⟨8, 4, dirCode e.dir⟩ (by simp [migrationFields])
    have hsize : read (content (bytesOf (migrationFields e))) 16 8 = e.size :=
      hread ⟨16, 8, e.size⟩ (by simp [migrationFields])
    have htime : readTime (content (bytesOf (migrationFields e))) 24 = e.time :=
      readTime_content (migrationFields_apart e) fun f hf => by simp [migrationFields, hf]
    simp only [decodeMigration, haddr, hdir, hsize, htime]

/-! ### The three files -/

inductive Log
  | sample
  | alloc
  | migration
  deriving DecidableEq, Repr

namespace Log

def Event : Log → Type
  | sample => SampleEvent
  | alloc => AllocEvent
  | migration => MigrationEvent

def Record : Log → Type
  | sample => SampleRecord
  | alloc => AllocRecord
  | migration => MigrationRecord

def format : (l : Log) → Format l.Event l.Record
  | sample => sampleFormat
  | alloc => allocFormat
  | migration => migrationFormat

end Log

end Logger
end Shambles
