import Shambles.Logger.Records

/-!
# Decode — a log file holds what was logged

The state after `n` calls has three parts, each with its own invariant:

- `Windows` says which windows are mapped and which were unmapped;
- `Holds` says what is in the file, without reference to addresses;
- `Inv` connects them: the record pointer shows the `(n + 1)`-th cell of the file.

One call either stays in its window or changes it first, after which it stays in the new one.
-/

namespace Shambles
namespace Logger

open Layout MappedFile

/-! ## The windows -/

/-- The window at `cur` is the `k`-th one, counted from 0, and the first one is at `base`. -/
structure Windows (base cur k : Nat) (s : State) : Prop where
  base_aligned : WINDOW ∣ base
  cur_aligned : WINDOW ∣ cur
  cur_apart : 0 < k → cur ≠ base
  cur_first : k = 0 → cur = base
  maps : s.maps = if k = 0 then [⟨base, 0⟩] else [⟨cur, k * WINDOW⟩, ⟨base, 0⟩]
  offset : s.offset = k * WINDOW
  length : s.length = (k + 1) * WINDOW
  /-- Every window between the first and the current one was unmapped, once. -/
  unmapped : s.unmapped = (List.range' 1 (k - 1)).map (· * WINDOW)

namespace Windows

variable {base cur k : Nat} {s : State}

theorem mem_first (h : Windows base cur k s) : ⟨base, 0⟩ ∈ s.maps := by
  rw [h.maps]
  split <;> simp

theorem mem_current (h : Windows base cur k s) : ⟨cur, k * WINDOW⟩ ∈ s.maps := by
  rw [h.maps]
  split
  · rename_i hk
    simp [hk, h.cur_first hk]
  · simp

theorem separate (h : Windows base cur k s) : Separate WINDOW s.maps := by
  rw [h.maps]
  split
  · exact ⟨by simpa using h.base_aligned, by simp⟩
  · rename_i hk
    have hne : cur ≠ base := h.cur_apart (Nat.pos_of_ne_zero hk)
    refine ⟨by simpa using ⟨h.cur_aligned, h.base_aligned⟩, ?_⟩
    simp [hne, hne.symm]

/-- Nothing but the file, the count and the pointer changes. -/
theorem congr (h : Windows base cur k s) {s' : State} (hmaps : s'.maps = s.maps)
    (hoffset : s'.offset = s.offset) (hlength : s'.length = s.length)
    (hunmapped : s'.unmapped = s.unmapped) : Windows base cur k s' :=
  { h with
    maps := hmaps.trans h.maps
    offset := hoffset.trans h.offset
    length := hlength.trans h.length
    unmapped := hunmapped.trans h.unmapped }

/-- At the end of a window, `munmap` hits that window, and only if it is not the first one. -/
theorem retire_eq (h : Windows base cur k s) (hptr : s.ptr = cur + WINDOW) :
    retire s = { s with
      maps := [⟨base, 0⟩]
      unmapped := (List.range' 1 k).map (· * WINDOW) } := by
  cases k with
  | zero =>
      have hmaps : s.maps = [⟨base, 0⟩] := by simpa using h.maps
      have hunmapped : s.unmapped = [] := by simpa using h.unmapped
      have hoffset : s.offset = 0 := by simpa using h.offset
      have hkeep : retire s = s := by simp [retire, hoffset]
      show retire s = { s with maps := [⟨base, 0⟩], unmapped := [] }
      rw [hkeep, ← hmaps, ← hunmapped]
  | succ k =>
      have hoffset : s.offset ≠ 0 := by
        rw [h.offset]
        simp [WINDOW]
      have hcur : s.ptr - WINDOW = cur := by omega
      have hne : cur ≠ base := h.cur_apart (Nat.succ_pos k)
      have hmaps : s.maps = [⟨cur, (k + 1) * WINDOW⟩, ⟨base, 0⟩] := by simpa using h.maps
      have hunmapped : s.unmapped = (List.range' 1 k).map (· * WINDOW) := by simpa using h.unmapped
      simp [retire, hoffset, munmap, hcur, hmaps, hunmapped, hne.symm, List.range'_concat,
        Nat.add_comm 1 k]

theorem nextWindow (h : Windows base cur k s) (hptr : s.ptr = cur + WINDOW) {mmapAt : Nat}
    (haligned : WINDOW ∣ mmapAt) (hfree : ∀ m ∈ (retire s).maps, m.base ≠ mmapAt) :
    Windows base mmapAt (k + 1) (nextWindow s mmapAt) := by
  have hretire := h.retire_eq hptr
  have hbase : base ≠ mmapAt := hfree ⟨base, 0⟩ (by simp [hretire])
  have hoffset := h.offset
  have hlength := h.length
  exact
    { base_aligned := h.base_aligned
      cur_aligned := haligned
      cur_apart := fun _ => hbase.symm
      cur_first := by simp
      maps := by simp [Logger.nextWindow, hretire, hoffset, Nat.succ_mul]
      offset := by simp [Logger.nextWindow, hretire, hoffset, Nat.succ_mul]
      length := by
        simp only [Logger.nextWindow, hretire, hoffset, hlength]
        rw [Nat.max_eq_right (by rw [Nat.succ_mul]; omega)]
        ring
      unmapped := by simp [Logger.nextWindow, hretire] }

end Windows

/-! ## The file -/

/-- A count that an `int` holds. -/
theorem toInt_ofNat_eq {n : Nat} (h : n < 2 ^ 31) : (BitVec.ofNat 32 n).toInt = n := by
  have hnat : (BitVec.ofNat 32 n).toNat = n := by
    rw [BitVec.toNat_ofNat]
    exact Nat.mod_eq_of_lt (by omega)
  rw [BitVec.toInt_eq_toNat_of_lt (by rw [hnat]; omega), hnat]

section File

variable {ε ρ : Type} {F : Format ε ρ} {es : List ε} {file : Nat → Byte}

/-- The file after the events `es`: the count, the records, and zeros behind them. -/
structure Holds (F : Format ε ρ) (es : List ε) (file : Nat → Byte) : Prop where
  count : read file 0 4 = BitVec.ofNat 32 es.length
  records : ∀ i e, es[i]? = some e → ∀ o < F.size,
    file ((i + 1) * F.size + o) = content (bytesOf (F.fields e)) o
  fresh : ∀ x, (es.length + 1) * F.size ≤ x → file x = 0

/-- What one call makes of the file. -/
def appendRecord (F : Format ε ρ) (n : Nat) (e : ε) (file : Nat → Byte) : Nat → Byte :=
  writeBytes (writeBytes file 0 (countBytes (n + 1))) ((n + 1) * F.size) (bytesOf (F.fields e))

theorem countBytes_lt (n : Nat) : ∀ x ∈ countBytes n, x.1 < 4 := by
  intro x hx
  simpa using (mem_leBytes hx).2

theorem bytesOf_fields_lt (F : Format ε ρ) (e : ε) : ∀ x ∈ bytesOf (F.fields e), x.1 < F.size := by
  intro x hx
  rcases mem_bytesOf hx with ⟨f, hf, -, hlt⟩
  have hfit := F.fields_fit e f hf
  omega

/-- Outside the count and the new cell the file stays as it is. -/
theorem appendRecord_outside (F : Format ε ρ) (n : Nat) (e : ε) {x : Nat} (hcount : 4 ≤ x)
    (hcell : x < (n + 1) * F.size ∨ (n + 1) * F.size + F.size ≤ x) :
    appendRecord F n e file x = file x := by
  calc
    appendRecord F n e file x
        = writeBytes file 0 (countBytes (n + 1)) x :=
          writeBytes_outside (bytesOf_fields_lt F e) hcell
    _ = file x := writeBytes_outside (countBytes_lt _) (Or.inr (by omega))

namespace Holds

theorem init (F : Format ε ρ) : Holds F [] (writeBytes (fun _ => 0) 0 (countBytes 0)) :=
  { count := read_field _ ⟨0, 4, BitVec.ofNat 32 0⟩
    records := by simp
    fresh := by
      intro x hx
      have hfits := F.count_fits
      refine writeBytes_outside (countBytes_lt _) (Or.inr ?_)
      simp at hx
      omega }

theorem cell_le (F : Format ε ρ) {i n : Nat} (h : i ≤ n) : (i + 1) * F.size ≤ (n + 1) * F.size :=
  Nat.mul_le_mul_right _ (Nat.succ_le_succ h)

theorem count_lt_cell (F : Format ε ρ) (n : Nat) : 4 ≤ (n + 1) * F.size := by
  have hfits := F.count_fits
  have hcell := cell_le F (Nat.zero_le n)
  omega

/-- Stores to the new cell lie behind the count. -/
theorem read_count (F : Format ε ρ) (file : Nat → Byte) (n : Nat) {bytes : List (Nat × Byte)}
    (hbytes : ∀ x ∈ bytes, x.1 < F.size) :
    read (writeBytes (writeBytes file 0 (countBytes (n + 1))) ((n + 1) * F.size) bytes) 0 4 =
      BitVec.ofNat 32 (n + 1) := by
  have hcell := count_lt_cell F n
  calc
    read (writeBytes (writeBytes file 0 (countBytes (n + 1))) ((n + 1) * F.size) bytes) 0 4
        = read (writeBytes file 0 (countBytes (n + 1))) 0 4 := by
          refine read_congr ?_
          intro i _ hlt
          exact writeBytes_outside hbytes (Or.inl (by omega))
    _ = BitVec.ofNat 32 (n + 1) := read_field file ⟨0, 4, BitVec.ofNat 32 (n + 1)⟩

theorem append (h : Holds F es file) (e : ε) :
    Holds F (es ++ [e]) (appendRecord F es.length e file) := by
  have hcell := count_lt_cell F es.length
  refine ⟨?_, ?_, ?_⟩
  · have hcount := read_count F file es.length (bytesOf_fields_lt F e)
    simpa [appendRecord] using hcount
  · intro i e' hi o ho
    rcases getElem?_concat_cases hi with hold | ⟨rfl, rfl⟩
    · -- an earlier record: its cell ends where the new one starts, or before
      have hlt := (List.getElem?_eq_some_iff.1 hold).1
      have hfirst := count_lt_cell F i
      have hnext : (i + 1) * F.size + F.size ≤ (es.length + 1) * F.size := by
        simpa [Nat.succ_mul] using cell_le F hlt
      rw [appendRecord_outside F _ e (by omega) (Or.inl (by omega))]
      exact h.records i e' hold o ho
    · -- the new record
      refine writeBytes_fresh ?_ ho
      intro o' _
      rw [writeBytes_outside (countBytes_lt _) (Or.inr (by omega))]
      exact h.fresh _ (by omega)
  · intro x hx
    have hbehind : (es.length + 1) * F.size + F.size ≤ x := by
      simpa [Nat.succ_mul] using hx
    rw [appendRecord_outside F _ e (by omega) (Or.inr hbehind)]
    exact h.fresh x (by omega)

theorem readCount_eq (h : Holds F es file) (hlen : es.length < 2 ^ 31) :
    readCount file = es.length := by
  rw [readCount, h.count, toInt_ofNat_eq hlen]

theorem readRecords_eq (h : Holds F es file) (hlen : es.length < 2 ^ 31) :
    readRecords F file = es.map F.record := by
  refine List.ext_getElem? ?_
  intro i
  simp only [readRecords, h.readCount_eq hlen, Int.toNat_natCast, List.getElem?_map]
  cases hi : es[i]? with
  | none =>
      have hge := List.getElem?_eq_none_iff.1 hi
      simp [hge]
  | some e =>
      have hlt := (List.getElem?_eq_some_iff.1 hi).1
      have hrecord : F.decode (fun o => file ((i + 1) * F.size + o)) = F.record e := by
        calc
          F.decode (fun o => file ((i + 1) * F.size + o))
              = F.decode (content (bytesOf (F.fields e))) := F.decode_congr _ _ (h.records i e hi)
          _ = F.record e := F.decode_fields e
      simp [hlt, hrecord]

end Holds

end File

/-! ## The writer -/

section Writer

variable {ε ρ : Type} {F : Format ε ρ} {base cur k pos : Nat} {es : List ε} {s : State}

/-- The record pointer stands `pos` bytes into the window at `cur`, which shows the next cell. -/
structure At (F : Format ε ρ) (base cur k pos n : Nat) (s : State) : Prop where
  windows : Windows base cur k s
  cntFile : s.cntFile = base
  cnt : s.cnt = n
  ptr : s.ptr = cur + pos
  cell : k * WINDOW + pos = (n + 1) * F.size

theorem window_test {ptr : Nat} : ptr &&& 0x1fffff = 0 ↔ WINDOW ∣ ptr := by
  have hand : ptr &&& 0x1fffff = ptr % WINDOW := Nat.and_two_pow_sub_one_eq_mod ptr 21
  rw [hand, Nat.dvd_iff_mod_eq_zero]

namespace At

variable {n : Nat}

theorem size_dvd (h : At F base cur k pos n s) : F.size ∣ pos := by
  have hall : F.size ∣ k * WINDOW + pos := by
    rw [h.cell]
    exact Nat.dvd_mul_left _ _
  exact (Nat.dvd_add_right (Dvd.dvd.mul_left F.size_dvd k)).1 hall

/-- Cells do not straddle windows. -/
theorem fits (h : At F base cur k pos n s) (hpos : pos < WINDOW) : pos + F.size ≤ WINDOW := by
  rcases h.size_dvd with ⟨i, rfl⟩
  rcases F.size_dvd with ⟨j, hj⟩
  rw [hj] at hpos ⊢
  have hij : i + 1 ≤ j := Nat.lt_of_mul_lt_mul_left hpos
  calc
    F.size * i + F.size = F.size * (i + 1) := (Nat.mul_succ _ _).symm
    _ ≤ F.size * j := Nat.mul_le_mul_left _ hij

/-- The pointer is aligned at the end of a window, and nowhere else in it. -/
theorem test_iff (h : At F base cur k pos n s) (hpos : 0 < pos) (hle : pos ≤ WINDOW) :
    s.ptr &&& 0x1fffff = 0 ↔ pos = WINDOW := by
  rw [window_test, h.ptr, Nat.dvd_add_right h.windows.cur_aligned]
  constructor
  · intro hdvd
    exact Nat.le_antisymm hle (Nat.le_of_dvd hpos hdvd)
  · rintro rfl
    exact dvd_refl _

theorem nextWindow (h : At F base cur k WINDOW n s) {mmapAt : Nat} (haligned : WINDOW ∣ mmapAt)
    (hfree : ∀ m ∈ (retire s).maps, m.base ≠ mmapAt) :
    At F base mmapAt (k + 1) 0 n (nextWindow s mmapAt) := by
  have hretire := h.windows.retire_eq h.ptr
  exact
    { windows := h.windows.nextWindow h.ptr haligned hfree
      cntFile := by simpa [Logger.nextWindow, hretire] using h.cntFile
      cnt := by simpa [Logger.nextWindow, hretire] using h.cnt
      ptr := rfl
      cell := by simpa [Nat.succ_mul] using h.cell }

theorem storeCount (h : At F base cur k pos n s) :
    storeBytes WINDOW s.maps s.file s.cntFile (countBytes (s.cnt + 1)) =
      some (writeBytes s.file 0 (countBytes (n + 1))) := by
  have hstore := storeBytes_eq h.windows.separate h.windows.mem_first (le_refl base)
    (show base + 4 ≤ base + WINDOW by simp [WINDOW]) (countBytes_lt (n + 1)) s.file
  simpa [h.cntFile, h.cnt] using hstore

/-- Stores through the record pointer reach the next cell. -/
theorem storeCell (h : At F base cur k pos n s) (hpos : pos < WINDOW) {bytes : List (Nat × Byte)}
    (hbytes : ∀ x ∈ bytes, x.1 < F.size) (file : Nat → Byte) :
    storeBytes WINDOW s.maps file s.ptr bytes =
      some (writeBytes file ((n + 1) * F.size) bytes) := by
  have hfits := h.fits hpos
  have hstore := storeBytes_eq h.windows.separate h.windows.mem_current
    (show cur ≤ cur + pos by omega) (show cur + pos + F.size ≤ cur + WINDOW by omega) hbytes file
  simpa [h.ptr, h.cell] using hstore

/-- With room for a record, the call goes through. -/
theorem writeRecord (h : At F base cur k pos n s) (hpos : pos < WINDOW) (e : ε) :
    ∃ s', writeRecord F s e = some s' ∧ s'.file = appendRecord F n e s.file ∧
      At F base cur k (pos + F.size) (n + 1) s' := by
  have hrecord := h.storeCell hpos (bytesOf_fields_lt F e)
    (writeBytes s.file 0 (countBytes (n + 1)))
  refine ⟨{ s with file := appendRecord F n e s.file, cnt := s.cnt + 1, ptr := s.ptr + F.size },
    by simp only [Logger.writeRecord, h.storeCount, hrecord, appendRecord], rfl, ?_⟩
  exact
    { windows := h.windows.congr rfl rfl rfl rfl
      cntFile := h.cntFile
      cnt := congrArg Nat.succ h.cnt
      ptr := by simp [h.ptr, Nat.add_assoc]
      cell := by
        have hcell := h.cell
        rw [Nat.succ_mul]
        omega }

/-- Which window the last cell that was written is in. -/
theorem window_eq (h : At F base cur k pos n s) (hpos : 0 < pos) (hle : pos ≤ WINDOW) :
    n * F.size / WINDOW = k := by
  have hsize : F.size ≤ pos := Nat.le_of_dvd hpos h.size_dvd
  have hfits := F.count_fits
  have hcell : k * WINDOW + pos = n * F.size + F.size := by simpa [Nat.succ_mul] using h.cell
  refine Nat.div_eq_of_lt_le (by omega) ?_
  rw [Nat.succ_mul]
  omega

end At

/-- The state in which a call stores the count: the window has been changed if there was need. -/
def ready (s : State) (call : Call ε) : State :=
  if s.ptr &&& 0x1fffff = 0 then nextWindow s call.mmapAt else s

theorem log_eq_ready (F : Format ε ρ) (s : State) (call : Call ε) :
    log F s call = writeRecord F (ready s call) call.event := by
  unfold log ready
  split <;> rfl

/-- What every call keeps. -/
structure Inv (F : Format ε ρ) (base : Nat) (es : List ε) (s : State) : Prop where
  holds : Holds F es s.file
  stands : ∃ cur k pos, At F base cur k pos es.length s ∧ 0 < pos ∧ pos ≤ WINDOW

namespace Inv

theorem init (F : Format ε ρ) (hbase : WINDOW ∣ base) : Inv F base [] (loggerInit F base) := by
  have hwindows : Windows base base 0 (loggerInit F base) :=
    { base_aligned := hbase
      cur_aligned := hbase
      cur_apart := by simp
      cur_first := fun _ => rfl
      maps := rfl
      offset := by simp [loggerInit]
      length := by simp [loggerInit]
      unmapped := rfl }
  have hfits := F.count_fits
  refine ⟨Holds.init F, base, 0, F.size, ⟨hwindows, rfl, rfl, rfl, by simp⟩, by omega, ?_⟩
  exact Nat.le_of_dvd (by decide) F.size_dvd

/-- When the count is stored there is room for a record, and the file is as it was. -/
theorem ready (h : Inv F base es s) {call : Call ε} (hen : Enabled s call) :
    (Logger.ready s call).file = s.file ∧
      ∃ cur k pos, At F base cur k pos es.length (Logger.ready s call) ∧ pos < WINDOW := by
  rcases h.stands with ⟨cur, k, pos, hat, hpos, hle⟩
  by_cases htest : s.ptr &&& 0x1fffff = 0
  · obtain rfl : pos = WINDOW := (hat.test_iff hpos hle).1 htest
    rcases hen htest with ⟨haligned, hfree⟩
    have hready : Logger.ready s call = nextWindow s call.mmapAt := if_pos htest
    rw [hready]
    refine ⟨?_, call.mmapAt, k + 1, 0, hat.nextWindow haligned hfree, by decide⟩
    simp [nextWindow, hat.windows.retire_eq hat.ptr]
  · have hne : pos ≠ WINDOW := fun heq => htest ((hat.test_iff hpos hle).2 heq)
    have hready : Logger.ready s call = s := if_neg htest
    rw [hready]
    exact ⟨rfl, cur, k, pos, hat, by omega⟩

/-- One call: it goes through, and the file has one more record. -/
theorem log (h : Inv F base es s) {call : Call ε} (hen : Enabled s call) :
    ∃ s', log F s call = some s' ∧ Inv F base (es ++ [call.event]) s' := by
  rcases h.ready hen with ⟨hkept, cur, k, pos, hat, hpos⟩
  rcases hat.writeRecord hpos call.event with ⟨s', hwrite, hfile, hat'⟩
  have hfits := F.count_fits
  refine ⟨s', by rw [log_eq_ready, hwrite], ?_, cur, k, pos + F.size, ?_, by omega, hat.fits hpos⟩
  · rw [hfile, hkept]
    exact h.holds.append call.event
  · simpa using hat'

theorem run (hbase : WINDOW ∣ base) {calls : List (Call ε)}
    (hrun : Run (system F) (loggerInit F base) calls s) : Inv F base (calls.map Call.event) s := by
  refine Run.invariant (P := fun calls s => Inv F base (calls.map Call.event) s)
    (init F hbase) ?_ hrun
  intro calls s call s' hinv hen hstep
  rcases hinv.log hen with ⟨t, ht, hinv'⟩
  obtain rfl : t = s' := Option.some.inj (ht.symm.trans hstep)
  simpa using hinv'

/-- When a window comes to its end, only the first one stays mapped. -/
theorem enabled (h : Inv F base es s) {call : Call ε} (haligned : WINDOW ∣ call.mmapAt)
    (hbase : call.mmapAt ≠ base) : Enabled s call := by
  intro htest
  rcases h.stands with ⟨cur, k, pos, hat, hpos, hle⟩
  obtain rfl : pos = WINDOW := (hat.test_iff hpos hle).1 htest
  refine ⟨haligned, ?_⟩
  intro m hm
  rw [hat.windows.retire_eq hat.ptr] at hm
  rw [List.mem_singleton.1 hm]
  exact hbase.symm

/-- Any number of calls goes through if `mmap` answers with aligned addresses off the first
window. -/
theorem exists_run (hbase : WINDOW ∣ base) (calls : List (Call ε))
    (hmmap : ∀ call ∈ calls, WINDOW ∣ call.mmapAt ∧ call.mmapAt ≠ base) :
    ∃ s, Run (system F) (loggerInit F base) calls s := by
  refine Run.exists_of_progress ?_
  intro done call hfront s hrun
  rcases hmmap call (hfront.subset (by simp)) with ⟨haligned, hne⟩
  have hinv := Inv.run hbase hrun
  have hen := hinv.enabled haligned hne
  rcases hinv.log hen with ⟨s', hs', -⟩
  exact ⟨hen, s', hs'⟩

theorem mem_first (h : Inv F base es s) : s.cntFile = base ∧ ⟨base, 0⟩ ∈ s.maps := by
  rcases h.stands with ⟨cur, k, pos, hat, -, -⟩
  exact ⟨hat.cntFile, hat.windows.mem_first⟩

theorem unmapped (h : Inv F base es s) :
    s.unmapped = (List.range' 1 (es.length * F.size / WINDOW - 1)).map (· * WINDOW) := by
  rcases h.stands with ⟨cur, k, pos, hat, hpos, hle⟩
  rw [hat.window_eq hpos hle]
  exact hat.windows.unmapped

/-- Every record lies in the part of the file that exists. -/
theorem length (h : Inv F base es s) : (es.length + 1) * F.size ≤ s.length := by
  rcases h.stands with ⟨cur, k, pos, hat, hpos, hle⟩
  rw [hat.windows.length, ← hat.cell, Nat.succ_mul]
  omega

end Inv

end Writer

/-! ## The three log files -/

/-- After every sequence of calls the file reads as what was logged.  The count stays mapped, the
windows between the first and the last one were unmapped once each, and the next call goes
through. -/
theorem log_decodes (l : Log) {base : Nat} (hbase : WINDOW ∣ base) {calls : List (Call l.Event)}
    (hlen : calls.length < 2 ^ 31) {s : State}
    (hrun : Run (system l.format) (loggerInit l.format base) calls s) :
    readCount s.file = calls.length ∧
      readRecords l.format s.file = calls.map (fun call => l.format.record call.event) ∧
      (calls.length + 1) * l.format.size ≤ s.length ∧
      (s.cntFile = base ∧ ⟨base, 0⟩ ∈ s.maps) ∧
      s.unmapped =
        (List.range' 1 (calls.length * l.format.size / WINDOW - 1)).map (· * WINDOW) ∧
      ∀ call, Enabled s call → ∃ s', log l.format s call = some s' := by
  have hinv := Inv.run hbase hrun
  have hlen' : (calls.map Call.event).length < 2 ^ 31 := by simpa using hlen
  refine ⟨?_, ?_, ?_, hinv.mem_first, ?_, ?_⟩
  · simpa using hinv.holds.readCount_eq hlen'
  · simpa [Function.comp_def] using hinv.holds.readRecords_eq hlen'
  · simpa using hinv.length
  · simpa using hinv.unmapped
  · intro call hen
    rcases hinv.log hen with ⟨s', hs', -⟩
    exact ⟨s', hs'⟩

/-- As many migrations as fill two windows and begin a third: the second window has been unmapped,
and the third is at its address. -/
theorem log_decodes_three_windows :
    ∃ s, Run (system Log.migration.format) (loggerInit Log.migration.format 0x200000)
        (List.replicate 65536 ⟨⟨.slow2fast, 0x7000, 4096, ⟨12, 34⟩⟩, 0x600000⟩) s ∧
      readCount s.file = 65536 ∧
      readRecords Log.migration.format s.file =
        List.replicate 65536 ⟨0x7000, 2, 4096, ⟨12, 34⟩⟩ ∧
      s.unmapped = [WINDOW] := by
  have hmmap : ∀ call ∈ List.replicate 65536
      (⟨⟨.slow2fast, 0x7000, 4096, ⟨12, 34⟩⟩, 0x600000⟩ : Call Log.migration.Event),
      WINDOW ∣ call.mmapAt ∧ call.mmapAt ≠ 0x200000 := by
    intro call hcall
    rw [List.eq_of_mem_replicate hcall]
    decide
  rcases Inv.exists_run (F := Log.migration.format) (by decide) _ hmmap with
    ⟨s, hrun⟩
  rcases log_decodes Log.migration (by decide) (List.length_replicate ▸ by decide) hrun with
    ⟨hcount, hrecords, -, -, hunmapped, -⟩
  rw [List.length_replicate] at hcount hunmapped
  rw [List.map_replicate] at hrecords
  exact ⟨s, hrun, hcount, hrecords, hunmapped⟩

end Logger
end Shambles
