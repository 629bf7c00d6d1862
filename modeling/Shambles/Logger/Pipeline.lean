import Shambles.Logger.Calls
import Shambles.Logger.PrintLog

/-!
# Pipeline — from the calls to the printed lines

The three log files of a process, read back and merged by `print-log`.  What is printed is the
history of the calls that have returned: every one once, in the order of the moments at which they
read the clock, each with the exact time since the first of them.  Each moment lies within its call,
so that the printed order does not contradict the order in which the calls happened.
-/

namespace Shambles
namespace Logger

open PrintLog

/-! ## The clock and the printed time -/

section Clock

variable {now : Nat}

theorem tvSec_clockGettime (h : now < CLOCK_END) :
    (clockGettime now).tvSec.toInt = now / 1000000000 := by
  have hlt : now / 1000000000 < 2 ^ 63 := by
    rw [CLOCK_END] at h
    omega
  have hnat : (BitVec.ofNat 64 (now / 1000000000)).toNat = now / 1000000000 := by
    rw [BitVec.toNat_ofNat]
    omega
  have hint := BitVec.toInt_eq_toNat_of_lt (x := BitVec.ofNat 64 (now / 1000000000)) (by omega)
  rw [hnat] at hint
  exact_mod_cast hint

theorem tvNsec_clockGettime : (clockGettime now).tvNsec.toInt = now % 1000000000 := by
  have hnat : (BitVec.ofNat 64 (now % 1000000000)).toNat = now % 1000000000 := by
    rw [BitVec.toNat_ofNat]
    omega
  have hint := BitVec.toInt_eq_toNat_of_lt (x := BitVec.ofNat 64 (now % 1000000000)) (by omega)
  rw [hnat] at hint
  exact_mod_cast hint

theorem validTime_clockGettime : ValidTime (clockGettime now) := by
  rw [ValidTime, tvNsec_clockGettime]
  omega

/-- Timestamps are compared as the moments are. -/
theorem timeKey_clockGettime_le {a b : Nat} (ha : a < CLOCK_END) (hb : b < CLOCK_END) :
    timeKey (clockGettime a) ≤ timeKey (clockGettime b) ↔ a ≤ b := by
  rw [timeKey, timeKey, Prod.Lex.toLex_le_toLex]
  simp only [tvSec_clockGettime ha, tvSec_clockGettime hb, tvNsec_clockGettime]
  omega

/-- The printed time is the time between the two moments. -/
theorem printTime_clockGettime {a b : Nat} (hle : a ≤ b) (hb : b < CLOCK_END) :
    (printTime (clockGettime a) (clockGettime b)).2 = clockGettime (b - a) := by
  have ha : a < CLOCK_END := by omega
  rcases printTime_spec validTime_clockGettime validTime_clockGettime
    ((timeKey_clockGettime_le ha hb).2 hle) with ⟨hpos, hnsec, hsec⟩
  have helapsed : elapsed (clockGettime a) (clockGettime b) = b - a := by
    simp only [elapsed, nanos, tvSec_clockGettime ha, tvSec_clockGettime hb, tvNsec_clockGettime]
    omega
  have hfits : elapsed (clockGettime a) (clockGettime b) / 1000000000 < 2 ^ 63 := by
    refine elapsed_fits validTime_clockGettime validTime_clockGettime ?_
    rw [tvSec_clockGettime ha]
    omega
  rw [(bmod_eq_iff_fits (by omega)).2 hfits] at hsec
  refine timeKey_injective ?_
  rw [timeKey, timeKey, hsec, hnsec, helapsed, tvSec_clockGettime (by omega), tvNsec_clockGettime]
  congr 2
  · omega
  · omega

end Clock

/-! ## The records and lines of a call -/

/-- The directions in words. -/
def directionText : Plugins.Direction → String
  | .initFast => "initialised at fast"
  | .initSlow => "initialised at slow"
  | .slow2fast => "migrated slow -> fast"
  | .fast2slow => "migrated fast -> slow"

/-- What the line of a call says. -/
def Request.text : Request → Text
  | .sample addr _ _ => .sampled addr
  | .alloc .alloc _ outPtr size => .allocated size outPtr
  | .alloc .realloc inPtr outPtr size =>
      if outPtr = inPtr then .realloced outPtr size else .moved inPtr size outPtr
  | .alloc .free inPtr _ _ => .freed inPtr
  | .migration dir addr size => .migrated addr size (some (directionText dir))

/-- The entry of `print-log` for a call. -/
def Request.entry (t : Timespec) : Request → Entry
  | .sample addr code flags => .sample (sampleFormat.record ⟨addr, code, flags, t⟩)
  | .alloc type inPtr outPtr size => .alloc (allocFormat.record ⟨type, inPtr, outPtr, size, t⟩)
  | .migration dir addr size => .migration (migrationFormat.record ⟨dir, addr, size, t⟩)

namespace Returned

def entry (x : Returned) : Entry :=
  x.request.entry (clockGettime x.stamped)

/-- The line of a call in a history that starts at `first`. -/
def line (first : Nat) (x : Returned) : Line :=
  ⟨clockGettime (x.stamped - first), x.request.text⟩

@[simp] theorem timestamp_entry (x : Returned) : x.entry.timestamp = clockGettime x.stamped := by
  rcases x with ⟨r, began, stamped⟩
  cases r <;> rfl

@[simp] theorem kind_entry (x : Returned) : x.entry.kind = x.request.log := by
  rcases x with ⟨r, began, stamped⟩
  cases r <;> rfl

theorem text_entry (x : Returned) (start : Timespec) :
    (x.entry.line start).text = x.request.text := by
  rcases x with ⟨r, began, stamped⟩
  cases r with
  | sample addr code flags => rfl
  | alloc type inPtr outPtr size => cases type <;> rfl
  | migration dir addr size => cases dir <;> rfl

theorem line_entry {first : Nat} {x : Returned} (hle : first ≤ x.stamped)
    (hlt : x.stamped < CLOCK_END) : x.entry.line (clockGettime first) = x.line first := by
  have htime : (x.entry.line (clockGettime first)).time = clockGettime (x.stamped - first) := by
    rw [Entry.line_time, timestamp_entry, printTime_clockGettime hle hlt]
  calc
    x.entry.line (clockGettime first)
        = ⟨(x.entry.line (clockGettime first)).time, (x.entry.line (clockGettime first)).text⟩ := rfl
    _ = x.line first := by rw [htime, text_entry, line]

end Returned

/-! ## The files as `print-log` reads them -/

/-- A record of a file as an entry. -/
def Log.entry : (l : Log) → l.Record → Entry
  | .sample => Entry.sample
  | .alloc => Entry.alloc
  | .migration => Entry.migration

theorem Request.entry_of_event {r : Request} {t : Timespec} {l : Log} {e : l.Event}
    (h : r.event t l = some e) : r.log = l ∧ l.entry (l.format.record e) = r.entry t := by
  cases r <;> cases l <;> first | (cases h; exact ⟨rfl, rfl⟩) | cases h

/-- The calls that wrote to one file. -/
def written (returned : List Returned) (l : Log) : List Returned :=
  returned.filter fun x => x.request.log = l

theorem entries_events (returned : List Returned) (l : Log) :
    (events returned l).map (fun e => l.entry (l.format.record e)) =
      (written returned l).map Returned.entry := by
  induction returned with
  | nil => rfl
  | cons x returned ih =>
      simp only [events, written] at ih ⊢
      cases he : x.request.event (clockGettime x.stamped) l with
      | none =>
          have hne : x.request.log ≠ l := by
            rintro rfl
            rcases x.request.event_log (clockGettime x.stamped) with ⟨e, hsome, -⟩
            rw [hsome] at he
            cases he
          simpa [he, hne] using ih
      | some e =>
          rcases Request.entry_of_event he with ⟨hlog, hentry⟩
          simpa [he, hlog, Returned.entry, hentry] using ih

theorem length_events (returned : List Returned) (l : Log) :
    (events returned l).length = (written returned l).length := by
  simpa using congrArg List.length (entries_events returned l)

theorem length_written (returned : List Returned) :
    (written returned .alloc).length + (written returned .sample).length +
      (written returned .migration).length = returned.length := by
  induction returned with
  | nil => rfl
  | cons x returned ih =>
      simp only [written] at ih ⊢
      cases hlog : x.request.log <;> simp [hlog] <;> omega

theorem mem_written {returned : List Returned} {l : Log} {x : Returned} :
    x ∈ written returned l ↔ x ∈ returned ∧ x.request.log = l := by
  simp [written]

/-- `print-log` on the files of a process. -/
def World.printed (w : World) (fuel : Nat) : Option (List Line) :=
  printLog fuel (readRecords allocFormat (w.logs .alloc).file)
    (readRecords sampleFormat (w.logs .sample).file)
    (readRecords migrationFormat (w.logs .migration).file)

section Files

variable {sampler : Nat} {bases : Log → Nat} {w : World}

theorem Safe.entries (h : Safe sampler bases w) (hquiet : w.Quiet sampler)
    (hcount : ∀ l, (written w.returned l).length < 2 ^ 31) (l : Log) :
    (readRecords l.format (w.logs l).file).map l.entry =
      (written w.returned l).map Returned.entry := by
  have hlen : (events w.returned l).length < 2 ^ 31 := by
    rw [length_events]
    exact hcount l
  rw [(h.holds hquiet l).holds.readRecords_eq hlen, List.map_map]
  exact entries_events w.returned l

/-- The three files that `print-log` starts from. -/
theorem Safe.files_eq (h : Safe sampler bases w) (hquiet : w.Quiet sampler)
    (hcount : ∀ l, (written w.returned l).length < 2 ^ 31) (l : Log) :
    files (readRecords allocFormat (w.logs .alloc).file)
        (readRecords sampleFormat (w.logs .sample).file)
        (readRecords migrationFormat (w.logs .migration).file) l =
      (written w.returned l).map Returned.entry := by
  rw [← h.entries hquiet hcount l]
  cases l <;> rfl

theorem Safe.ahead (h : Safe sampler bases w) (l : Log) :
    ((written w.returned l).map Returned.entry).Pairwise Ahead := by
  refine List.pairwise_map.2 ?_
  have hsorted : (written w.returned l).Pairwise fun x y => x.stamped ≤ y.stamped :=
    h.sorted.sublist List.filter_sublist
  refine hsorted.imp_of_mem ?_
  intro x y hx hy hle
  rcases mem_written.1 hx with ⟨hx, hlx⟩
  rcases mem_written.1 hy with ⟨hy, hly⟩
  have hclock := h.clock
  have hx' := (h.spans x hx).2
  have hy' := (h.spans y hy).2
  refine key_le_of_timeKey_le ?_ ?_
  · rw [Returned.timestamp_entry, Returned.timestamp_entry]
    exact (timeKey_clockGettime_le (by omega) (by omega)).2 hle
  · rw [Returned.kind_entry, Returned.kind_entry, hlx, hly]

/-- The order of the keys in terms of the moments. -/
theorem order_of_ahead {x y : Returned} (hx : x.stamped < CLOCK_END) (hy : y.stamped < CLOCK_END)
    (h : Ahead x.entry y.entry) : x.stamped < y.stamped ∨
      x.stamped = y.stamped ∧ x.request.log.rank ≤ y.request.log.rank := by
  have hle : x.stamped ≤ y.stamped := by
    have htime := timeKey_le_of_key_le h
    rw [Returned.timestamp_entry, Returned.timestamp_entry] at htime
    exact (timeKey_clockGettime_le hx hy).1 htime
  rcases hle.lt_or_eq with hlt | heq
  · exact Or.inl hlt
  · refine Or.inr ⟨heq, ?_⟩
    rcases Prod.Lex.toLex_le_toLex.1 h with hlt | ⟨-, hrank⟩
    · simp [heq] at hlt
    · simpa using hrank

/-- The lines for files that hold the calls `returned`. -/
theorem printLog_calls {allocs : List AllocRecord} {samples : List SampleRecord}
    {migs : List MigrationRecord} {returned : List Returned}
    (hfile : ∀ l, files allocs samples migs l = (written returned l).map Returned.entry)
    (hahead : ∀ l, ((written returned l).map Returned.entry).Pairwise Ahead) :
    ∃ history : List Returned,
      (∀ l, written history l = written returned l) ∧
      (history.map Returned.entry).Pairwise Ahead ∧
      (∀ x ∈ history.head?, startOf allocs samples migs = clockGettime x.stamped) ∧
      ∀ fuel, returned.length < fuel → printLog fuel allocs samples migs =
        some ((history.map Returned.entry).map (Entry.line (startOf allocs samples migs))) := by
  have hfiles : ∀ i, (files allocs samples migs i).Pairwise Ahead := by
    intro i
    rw [hfile]
    exact hahead _
  rcases printLog_returns hfiles with ⟨entries, hprint, hsorted, hparts⟩
  -- every entry is the entry of a call
  have hqueues : ∀ i, entries.filter (fun x => x.kind = i) =
      (written returned i).map Returned.entry := by
    intro i
    rw [hparts i, ← hfile]
  rcases QueueMerge.exists_merge hqueues with ⟨history, rfl, hhistory⟩
  refine ⟨history, ?_, hsorted, ?_, ?_⟩
  · intro l
    rw [← hhistory l]
    simp [written]
  · -- the start is the least of the timestamps, and so is the first
    intro x hx
    have hentries : ∀ y ∈ history.map Returned.entry, y ∈ files allocs samples migs y.kind := by
      intro y hy
      rw [← hparts y.kind]
      exact List.mem_filter.2 ⟨hy, by simp⟩
    have hmem : x.entry ∈ history.map Returned.entry :=
      List.mem_map_of_mem (List.mem_of_mem_head? hx)
    have hvalid : ValidTime x.entry.timestamp := by
      rw [Returned.timestamp_entry]
      exact validTime_clockGettime
    rcases startOf_mem (hfiles _) (hentries _ hmem) hvalid with ⟨j, y, hy, hstart⟩
    rw [← hparts j] at hy
    have hhead : (history.map Returned.entry).head? = some x.entry := by
      rw [List.head?_map, hx]
      rfl
    have htime := timestamp_head hsorted
      (fun z hz => startOf_le (hfiles _) (hentries z hz)) (List.mem_filter.1 hy).1 hstart hhead
    rw [← htime, Returned.timestamp_entry]
  · intro fuel hfuel
    have hlen : ∀ l, (files allocs samples migs l).length = (written returned l).length := by
      intro l
      rw [hfile, List.length_map]
    have halloc := hlen .alloc
    have hsample := hlen .sample
    have hmig := hlen .migration
    simp only [pending, State.init, List.drop_zero, List.length_map] at halloc hsample hmig
    have htotal := length_written returned
    exact hprint fuel (by omega)

end Files

/-- The moment of the first line. -/
def first (history : List Returned) : Nat :=
  (history.head?.map Returned.stamped).getD 0

/-- Whatever the threads do, no store misses the mapped windows.  And when no call is inside,
`print-log` prints the history of the calls that have returned: each file in the order of its
calls, all of them in the order of the moments at which they read the clock, allocations before
samples before migrations if the clock did not move.  A call that was made after another one had
read the clock is not printed before it.  The times are exact. -/
theorem prints_history {sampler now : Nat} {bases : Log → Nat} (hbases : ∀ l, WINDOW ∣ bases l)
    (hnow : now < CLOCK_END) {as : List Action} {w : World}
    (hrun : Run (World.system sampler) (World.init now bases) as w) :
    (∀ a, w.Enabled sampler a → ∃ w', w.step a = some w') ∧
      (w.Quiet sampler → (∀ l, (written w.returned l).length < 2 ^ 31) →
        ∃ history : List Returned,
          (∀ l, written history l = written w.returned l) ∧
          history.Pairwise (fun x y => x.began ≤ y.stamped ∧ (x.stamped < y.stamped ∨
            x.stamped = y.stamped ∧ x.request.log.rank ≤ y.request.log.rank)) ∧
          ∀ fuel, w.returned.length < fuel →
            w.printed fuel = some (history.map (Returned.line (first history)))) := by
  have h := Safe.run hbases hnow hrun
  refine ⟨?_, ?_⟩
  · intro a hen
    rcases h.step hen with ⟨w', hw', -⟩
    exact ⟨w', hw'⟩
  · intro hquiet hcount
    rcases printLog_calls (h.files_eq hquiet hcount) h.ahead with
      ⟨history, hparts, hsorted, hstart, hprint⟩
    have hspans : ∀ x ∈ history, x.began ≤ x.stamped ∧ x.stamped < CLOCK_END := by
      intro x hx
      have hmem : x ∈ written w.returned x.request.log := by
        rw [← hparts]
        exact mem_written.2 ⟨hx, rfl⟩
      have hclock := h.clock
      have hx' := h.spans x (mem_written.1 hmem).1
      exact ⟨hx'.1, by omega⟩
    have horder : history.Pairwise fun x y => x.stamped < y.stamped ∨
        x.stamped = y.stamped ∧ x.request.log.rank ≤ y.request.log.rank :=
      (List.pairwise_map.1 hsorted).imp_of_mem fun hx hy hahead =>
        order_of_ahead (hspans _ hx).2 (hspans _ hy).2 hahead
    refine ⟨history, hparts, ?_, ?_⟩
    · refine horder.imp_of_mem ?_
      intro x y hx hy hxy
      have hbegan := (hspans x hx).1
      exact ⟨by omega, hxy⟩
    · intro fuel hfuel
      rw [World.printed, hprint fuel hfuel, List.map_map]
      refine congrArg some (List.map_congr_left ?_)
      intro x hx
      cases history with
      | nil => cases hx
      | cons y rest =>
          have hle : y.stamped ≤ x.stamped := by
            rcases List.mem_cons.1 hx with rfl | hrest
            · exact le_refl _
            · have hyx := (List.pairwise_cons.1 horder).1 x hrest
              omega
          rw [hstart y rfl]
          exact Returned.line_entry hle (hspans x hx).2

def threeFiles : Log → Nat
  | .sample => 0x200000
  | .alloc => 0x400000
  | .migration => 0x600000

/-- An allocation is still inside when a sample and a migration have returned. -/
def overlapping : List Action :=
  [.call 1 (.alloc .alloc 0 0x1000 0x40), .call 7 (.sample 0x1008 none 0), .enter 1 0, .enter 7 0,
    .tick 5, .finish 7, .call 2 (.migration .slow2fast 0x1000 0x1000), .enter 2 0, .finish 2,
    .tick 3, .finish 1]

theorem prints_history_overlapping :
    ∃ w, Run (World.system 7) (World.init 1000 threeFiles) overlapping w ∧
      ∃ history : List Returned, (∀ l, written history l = written w.returned l) ∧
        w.printed 4 = some (history.map (Returned.line (first history))) := by
  rcases Run.of_exec_any (World.system 7) (World.init 1000 threeFiles) overlapping
    (fun w => w.Quiet 7 ∧ w.returned.length = 3) (by decide) with ⟨w, hrun, hquiet, hlen⟩
  have hbases : ∀ l, WINDOW ∣ threeFiles l := by
    intro l
    cases l <;> decide
  have hcount : ∀ l, (written w.returned l).length < 2 ^ 31 := by
    intro l
    have hle : (written w.returned l).length ≤ w.returned.length := List.length_filter_le _ _
    omega
  rcases (prints_history hbases (by decide) hrun).2 hquiet hcount with ⟨history, hparts, -, hprint⟩
  exact ⟨w, hrun, history, hparts, hprint 4 (by omega)⟩

end Logger
end Shambles
