import Mathlib.Tactic

/-!
# Layout — records as bytes

A file, or a block of it, is a function from byte offsets to bytes.  A `Field` is a value of a fixed
width that is stored little endian at an offset of a record.

- `writeBytes` performs single byte stores, given by their offsets from the start of the record;
- `read` reads one field back;
- `read_content` is the round trip: in a record that was zero before, every field of a list of
  fields that lie apart reads as the value that was stored.
-/

namespace Shambles
namespace Layout

abbrev Byte := BitVec 8

/-! ## Byte stores -/

def writeBytes (file : Nat → Byte) (pos : Nat) (bytes : List (Nat × Byte)) : Nat → Byte :=
  bytes.foldl (fun f x => Function.update f (pos + x.1) x.2) file

/-- What the stores make of a block of zeros. -/
def content (bytes : List (Nat × Byte)) : Nat → Byte :=
  writeBytes (fun _ => 0) 0 bytes

theorem writeBytes_append (file : Nat → Byte) (pos : Nat) (bytes bytes' : List (Nat × Byte)) :
    writeBytes file pos (bytes ++ bytes') = writeBytes (writeBytes file pos bytes) pos bytes' := by
  simp [writeBytes]

section Bytes

variable {bytes : List (Nat × Byte)} {pos size : Nat}

/-- A byte that is not stored to stays as it is. -/
theorem writeBytes_untouched {file : Nat → Byte} {i : Nat} (hi : ∀ x ∈ bytes, i ≠ pos + x.1) :
    writeBytes file pos bytes i = file i := by
  induction bytes generalizing file with
  | nil => rfl
  | cons x bytes ih =>
      calc
        writeBytes file pos (x :: bytes) i
            = writeBytes (Function.update file (pos + x.1) x.2) pos bytes i := rfl
        _ = Function.update file (pos + x.1) x.2 i :=
              ih fun y hy => hi y (List.mem_cons_of_mem _ hy)
        _ = file i := Function.update_of_ne (hi x List.mem_cons_self) _ _

/-- Nothing changes outside the record. -/
theorem writeBytes_outside (hbytes : ∀ x ∈ bytes, x.1 < size) {file : Nat → Byte} {i : Nat}
    (hi : i < pos ∨ pos + size ≤ i) : writeBytes file pos bytes i = file i := by
  refine writeBytes_untouched ?_
  intro x hx
  have hlt := hbytes x hx
  omega

/-- Stores at the same relative places keep two blocks alike. -/
theorem writeBytes_congr {file file' : Nat → Byte} {pos' : Nat}
    (h : ∀ o < size, file (pos + o) = file' (pos' + o)) :
    ∀ o < size, writeBytes file pos bytes (pos + o) = writeBytes file' pos' bytes (pos' + o) := by
  induction bytes generalizing file file' with
  | nil => exact h
  | cons x bytes ih =>
      have hstep : ∀ o < size, Function.update file (pos + x.1) x.2 (pos + o) =
          Function.update file' (pos' + x.1) x.2 (pos' + o) := by
        intro o ho
        by_cases hox : o = x.1
        · simp [hox]
        · simp [Function.update_of_ne, hox, h o ho]
      exact ih hstep

/-- In a block of zeros the stores leave their content. -/
theorem writeBytes_fresh {file : Nat → Byte} (hzero : ∀ o < size, file (pos + o) = 0) {o : Nat}
    (ho : o < size) : writeBytes file pos bytes (pos + o) = content bytes o := by
  have hcongr : writeBytes file pos bytes (pos + o) =
      writeBytes (fun _ => 0) 0 bytes (0 + o) := writeBytes_congr hzero o ho
  simpa [content] using hcongr

end Bytes

/-! ## Little endian numbers -/

/-- The stores of a number in `width` bytes. -/
def leBytes (offset : Nat) : Nat → Nat → List (Nat × Byte)
  | 0, _ => []
  | width + 1, value => (offset, BitVec.ofNat 8 value) :: leBytes (offset + 1) width (value / 256)

def readLe (m : Nat → Byte) (offset : Nat) : Nat → Nat
  | 0 => 0
  | width + 1 => (m offset).toNat + 256 * readLe m (offset + 1) width

theorem mem_leBytes {x : Nat × Byte} {offset width value : Nat}
    (hx : x ∈ leBytes offset width value) : offset ≤ x.1 ∧ x.1 < offset + width := by
  induction width generalizing offset value with
  | zero => simp [leBytes] at hx
  | succ width ih =>
      rcases List.mem_cons.1 hx with rfl | hx
      · exact ⟨le_refl offset, by simp⟩
      · have htail := ih hx
        omega

theorem readLe_congr {m m' : Nat → Byte} {offset width : Nat}
    (h : ∀ i, offset ≤ i → i < offset + width → m i = m' i) :
    readLe m offset width = readLe m' offset width := by
  induction width generalizing offset with
  | zero => rfl
  | succ width ih =>
      have hhead : m offset = m' offset := h offset (le_refl _) (by omega)
      have htail : readLe m (offset + 1) width = readLe m' (offset + 1) width :=
        ih fun i hle hlt => h i (by omega) (by omega)
      simp [readLe, hhead, htail]

theorem readLe_leBytes (m : Nat → Byte) (offset width value : Nat) :
    readLe (writeBytes m 0 (leBytes offset width value)) offset width = value % 256 ^ width := by
  induction width generalizing m offset value with
  | zero => simp [readLe, Nat.mod_one]
  | succ width ih =>
      -- the bytes that follow are stored behind the first one
      have hhead : writeBytes m 0 (leBytes offset (width + 1) value) offset =
          BitVec.ofNat 8 value := by
        calc
          writeBytes m 0 (leBytes offset (width + 1) value) offset
              = writeBytes (Function.update m (0 + offset) (BitVec.ofNat 8 value)) 0
                  (leBytes (offset + 1) width (value / 256)) offset := rfl
          _ = Function.update m (0 + offset) (BitVec.ofNat 8 value) offset := by
                refine writeBytes_untouched ?_
                intro x hx
                have hin := mem_leBytes hx
                omega
          _ = BitVec.ofNat 8 value := by simp
      have htail : readLe (writeBytes m 0 (leBytes offset (width + 1) value)) (offset + 1) width =
          value / 256 % 256 ^ width := ih _ _ _
      calc
        readLe (writeBytes m 0 (leBytes offset (width + 1) value)) offset (width + 1)
            = value % 256 + 256 * (value / 256 % 256 ^ width) := by
              simp only [readLe, hhead, htail, BitVec.toNat_ofNat]
        _ = value % (256 * 256 ^ width) := (Nat.mod_mul).symm
        _ = value % 256 ^ (width + 1) := by rw [Nat.pow_succ']

/-! ## Fields -/

structure Field where
  offset : Nat
  width : Nat
  value : BitVec (8 * width)

def Field.bytes (f : Field) : List (Nat × Byte) :=
  leBytes f.offset f.width f.value.toNat

def Field.Apart (f g : Field) : Prop :=
  f.offset + f.width ≤ g.offset ∨ g.offset + g.width ≤ f.offset

/-- The stores of a record, in the order of the list. -/
def bytesOf (fields : List Field) : List (Nat × Byte) :=
  fields.flatMap Field.bytes

def read (m : Nat → Byte) (offset width : Nat) : BitVec (8 * width) :=
  BitVec.ofNat (8 * width) (readLe m offset width)

theorem read_congr {m m' : Nat → Byte} {offset width : Nat}
    (h : ∀ i, offset ≤ i → i < offset + width → m i = m' i) :
    read m offset width = read m' offset width := by
  rw [read, readLe_congr h, read]

/-- Blocks that agree on the bytes below `size` agree on the fields there. -/
theorem read_congr_below {m m' : Nat → Byte} {size offset width : Nat}
    (h : ∀ o < size, m o = m' o) (hle : offset + width ≤ size) :
    read m offset width = read m' offset width := by
  refine read_congr ?_
  intro i _ hlt
  exact h i (by omega)

/-- Every byte of a record lies in one of its fields. -/
theorem mem_bytesOf {fields : List Field} {x : Nat × Byte} (hx : x ∈ bytesOf fields) :
    ∃ f ∈ fields, f.offset ≤ x.1 ∧ x.1 < f.offset + f.width := by
  rcases List.mem_flatMap.1 hx with ⟨f, hf, hin⟩
  exact ⟨f, hf, mem_leBytes hin⟩

theorem read_field (m : Nat → Byte) (f : Field) :
    read (writeBytes m 0 f.bytes) f.offset f.width = f.value := by
  have hlt : f.value.toNat < 256 ^ f.width := by
    have hpow : 2 ^ (8 * f.width) = 256 ^ f.width := by rw [Nat.pow_mul]
    simpa [hpow] using f.value.isLt
  rw [read, Field.bytes, readLe_leBytes, Nat.mod_eq_of_lt hlt, BitVec.ofNat_toNat]
  exact BitVec.setWidth_eq f.value

/-- Fields that lie apart from a place leave what is read there. -/
theorem read_apart (m : Nat → Byte) {fields : List Field} {offset width : Nat}
    (hapart : ∀ f ∈ fields, f.offset + f.width ≤ offset ∨ offset + width ≤ f.offset) :
    read (writeBytes m 0 (bytesOf fields)) offset width = read m offset width := by
  refine read_congr ?_
  intro i hle hlt
  refine writeBytes_untouched ?_
  intro x hx
  rcases mem_bytesOf hx with ⟨f, hf, hin⟩
  have hf' := hapart f hf
  omega

theorem read_writeBytes {fields : List Field} (hapart : fields.Pairwise Field.Apart)
    (m : Nat → Byte) {f : Field} (hf : f ∈ fields) :
    read (writeBytes m 0 (bytesOf fields)) f.offset f.width = f.value := by
  induction fields generalizing m with
  | nil => simp at hf
  | cons g fields ih =>
      rcases List.pairwise_cons.1 hapart with ⟨hg, htail⟩
      have hsplit : writeBytes m 0 (bytesOf (g :: fields)) =
          writeBytes (writeBytes m 0 g.bytes) 0 (bytesOf fields) := by
        simpa [bytesOf] using writeBytes_append m 0 g.bytes (bytesOf fields)
      rw [hsplit]
      rcases List.mem_cons.1 hf with rfl | hf
      · -- the later fields do not touch the first one
        have hkeep : read (writeBytes (writeBytes m 0 f.bytes) 0 (bytesOf fields)) f.offset f.width =
            read (writeBytes m 0 f.bytes) f.offset f.width := by
          refine read_apart _ ?_
          intro g hmem
          exact (hg g hmem).symm
        rw [hkeep, read_field]
      · exact ih htail _ hf

/-- The round trip. -/
theorem read_content {fields : List Field} (hapart : fields.Pairwise Field.Apart) {f : Field}
    (hf : f ∈ fields) : read (content (bytesOf fields)) f.offset f.width = f.value :=
  read_writeBytes hapart _ hf

/-- A byte that belongs to no field is zero. -/
theorem read_content_apart {fields : List Field} {offset : Nat}
    (hapart : ∀ f ∈ fields, f.offset + f.width ≤ offset ∨ offset + 1 ≤ f.offset) :
    read (content (bytesOf fields)) offset 1 = 0 :=
  read_apart _ hapart

end Layout
end Shambles
