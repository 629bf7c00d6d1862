import Shambles.Lib.MappedFile
import Shambles.Lib.Runs

/-!
# Model — the three log files

`logger.c` writes three files in the same way, which differ in the record: a count in the first
record-sized cell, then one record after the other.  The file is written through windows of 2 MB.
The end of a window shows in the alignment of the record pointer; the first window stays mapped for
the count, every later one is unmapped when the next one is mapped.

- The writer is one definition with the record's `Format` as a parameter, and so is the reader
  (`print-log.c`).
- `mmap` answers with an address of its choice, which is part of the call.
- The addresses of a window do not reach the end of the address space.
-/

namespace Shambles
namespace Logger

open Layout MappedFile

/-- 2 MB -/
def WINDOW : Nat :=
  0x200000

/-- A record as it is written (`fields`, in the order of the stores) and as it is read. -/
structure Format (ε ρ : Type) where
  /-- `sizeof` the record. -/
  size : Nat
  fields : ε → List Field
  /-- What the record of an event should hold. -/
  record : ε → ρ
  decode : (Nat → Byte) → ρ
  count_fits : 4 ≤ size
  size_dvd : size ∣ WINDOW
  fields_fit : ∀ e, ∀ f ∈ fields e, f.offset + f.width ≤ size
  decode_congr : ∀ m m', (∀ o < size, m o = m' o) → decode m = decode m'
  decode_fields : ∀ e, decode (content (bytesOf (fields e))) = record e

/-! ## The writer -/

structure State where
  file : Nat → Byte
  /-- `st_size` -/
  length : Nat
  maps : List Mapping
  /-- The address of the count. -/
  cntFile : Nat
  /-- The address of the next record. -/
  ptr : Nat
  cnt : Nat
  /-- The place of the current window in the file. -/
  offset : Nat
  /-- Ghost: the places of the windows that were unmapped, oldest first. -/
  unmapped : List Nat

/-- One call: what is logged, and the address `mmap` answers with if it is asked. -/
structure Call (ε : Type) where
  event : ε
  mmapAt : Nat

/-- `munmap` of one window.  Windows are aligned, so that no other window is hit in part. -/
def munmap (s : State) (base : Nat) : State :=
  { s with
    maps := s.maps.filter fun m => m.base ≠ base
    unmapped := s.unmapped ++ (s.maps.filter fun m => m.base = base).map Mapping.offset }

/-- The current window is given up, unless it is the first one. -/
def retire (s : State) : State :=
  -- The record pointer has just run past the end of the window.
  if s.offset ≠ 0 then munmap s (s.ptr - WINDOW) else s

/-- `posix_fallocate` and `mmap` of the window behind the current one. -/
def nextWindow (s : State) (mmapAt : Nat) : State :=
  -- The old window goes before the new one comes: `mmap` may answer with its address.
  let s₁ := retire s
  { s₁ with
    offset := s₁.offset + WINDOW
    length := max s₁.length (s₁.offset + WINDOW + WINDOW)
    maps := ⟨mmapAt, s₁.offset + WINDOW⟩ :: s₁.maps
    ptr := mmapAt }

/-- The store of an `int` to the count. -/
def countBytes (n : Nat) : List (Nat × Byte) :=
  Field.bytes ⟨0, 4, BitVec.ofNat 32 n⟩

section Writer

variable {ε ρ : Type} (F : Format ε ρ)

/-- `logAllocInit`, `logSampleInit` and `logMigInit`, when `mmap` answers `base`.  The file is new:
it holds zeros. -/
def loggerInit (base : Nat) : State :=
  { file := writeBytes (fun _ => 0) 0 (countBytes 0)
    length := WINDOW
    maps := [⟨base, 0⟩]
    cntFile := base
    ptr := base + F.size
    cnt := 0
    offset := 0
    unmapped := [] }

/-- The count, then the record, then the step to the next cell. -/
def writeRecord (s : State) (event : ε) : Option State :=
  match storeBytes WINDOW s.maps s.file s.cntFile (countBytes (s.cnt + 1)) with
  | none => none
  | some file =>
      match storeBytes WINDOW s.maps file s.ptr (bytesOf (F.fields event)) with
      | none => none
      | some file' => some { s with file := file', cnt := s.cnt + 1, ptr := s.ptr + F.size }

/-- `logSample`, `logAlloc` and `logMigration` -/
def log (s : State) (call : Call ε) : Option State :=
  -- Windows are aligned to their size, so the end of one shows in the low bits.
  if s.ptr &&& 0x1fffff = 0 then
    writeRecord F (nextWindow s call.mmapAt) call.event
  else
    writeRecord F s call.event

/-- A window that `mmap` adds is aligned and lies apart from the mapped ones. -/
def Enabled (s : State) (call : Call ε) : Prop :=
  s.ptr &&& 0x1fffff = 0 →
    WINDOW ∣ call.mmapAt ∧ ∀ m ∈ (retire s).maps, m.base ≠ call.mmapAt

def system : System State (Call ε) :=
  { enabled := Enabled
    step := log F }

instance (s : State) (call : Call ε) : Decidable ((system F).enabled s call) :=
  inferInstanceAs (Decidable (s.ptr &&& 0x1fffff = 0 →
    WINDOW ∣ call.mmapAt ∧ ∀ m ∈ (retire s).maps, m.base ≠ call.mmapAt))

/-! ## The reader -/

/-- `*((int *)samples)` -/
def readCount (file : Nat → Byte) : Int :=
  (read file 0 4).toInt

/-- The records that the main loop goes through: `samples` points to the second cell. -/
def readRecords (file : Nat → Byte) : List ρ :=
  -- `sampleIndx < sampleSize` compares `int`s: a negative count gives no record.
  (List.range (readCount file).toNat).map fun i =>
    F.decode fun o => file ((i + 1) * F.size + o)

end Writer

end Logger
end Shambles
