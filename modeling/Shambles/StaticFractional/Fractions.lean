import Shambles.Lib.CString
import Shambles.Plugins.Config
import Shambles.StaticFractional.Agreement

/-!
# Fractions — which fraction an allocation gets

`shambles_init` of `static-fractional.c` reads a comma separated list.  It goes through the string
twice: the first loop counts the commas, the second one writes a terminator over each of them and
hands the fields to `fraction`.  `bindAlloc` then takes one entry for each large allocation.

1. `parse_eq`: the array holds the fractions of the fields, as long as the counters stay in an
   `int`.
2. `plain_follows_iff`: an allocation gets the entry with its number, for the first `2^31` of them.
   Then the counter becomes negative and the array is read before its start.

`fraction`, which rests on `atof`, is any function from strings to `0 .. 2^20`.
-/

namespace Shambles
namespace StaticFractional

open CString Jemalloc Plugins Structures

/-- The terminator of a string. -/
def NUL : Char :=
  Char.ofNat 0

/-- The results of `fraction`. -/
abbrev Fraction : Type :=
  Fin (2 ^ FRACTION_SHIFT + 1)

/-! ## The parse -/

section Parse

variable (fraction : List Char → Fraction)

/-- The sum of two `int`; an overflow has no outcome. -/
def addInt (m n : Nat) : Option Nat :=
  if m + n ≤ INT_MAX then some (m + n) else none

/-- The first loop, from `env + i` on. -/
def countCommas : List Char → Nat → Nat → Option Nat
  -- no terminator: the buffer is left
  | [], _, _ => none
  | c :: cs, i, len =>
      if c = NUL then
        some len
      else do
        let len ← addInt len (if c = ',' then 1 else 0)
        let i ← addInt i 1
        countCommas cs i len

/-- What the second loop works on: the string in its buffer, the pointer `env` into it, and the
array, in which an entry that has not been written is `none`. -/
structure Parse where
  buf : List Char
  env : Nat
  fractions : List (Option Fraction)
  deriving DecidableEq

/-- `fractions[i] = f` -/
def storeAt (fractions : List (Option Fraction)) (i : Nat) (f : Fraction) :
    Option (List (Option Fraction)) :=
  if i < fractions.length then some (fractions.set i (some f)) else none

/-- The body of the second loop. -/
def cutField (i : Nat) (s : Parse) : Option Parse := do
  -- there is no outcome if `strstr` finds nothing: its result is written through
  let next ← find NUL s.buf s.env ','
  let buf := s.buf.set next NUL
  let fractions ← storeAt s.fractions i (fraction (strAt NUL buf s.env))
  some ⟨buf, next + 1, fractions⟩

/-- The second loop, with the rounds that are left. -/
def cutFields : Nat → Nat → Parse → Option Parse
  | 0, _, s => some s
  | rounds + 1, i, s => do
      let s ← cutField fraction i s
      cutFields rounds (i + 1) s

/-- The array that is filled from the value of the variable. -/
def parse (value : List Char) : Option (List Fraction) := do
  let buf := value ++ [NUL]
  let commas ← countCommas buf 0 0
  let len ← addInt commas 1
  let s ← cutFields fraction (len - 1) 0 ⟨buf, 0, List.replicate len none⟩
  let fractions ← storeAt s.fractions (len - 1) (fraction (strAt NUL s.buf s.env))
  fractions.mapM id

/-- The variable that is read, and `invert`. -/
def fractionsVariable (env : Environment) : Option (String × Bool) :=
  match env "SHAMBLES_ALLOC_FAST_FRACTIONS" with
  | some value => some (value, false)
  | none => (env "SHAMBLES_ALLOC_SLOW_FRACTIONS").map fun value => (value, true)

/-- `shambles_init`; `none` is the call of `abort`, or a parse without an outcome. -/
def shamblesInit (m : Machine) (env : Environment) : Option Settings :=
  match hconfig : shamblesPluginConfigInit m env with
  | none => none
  | some config =>
      match fractionsVariable env with
      | none =>
          some ⟨config.sizeThresshold, [], false, thresshold_pos_of_config hconfig, by simp⟩
      | some (value, invert) =>
          (parse fraction value.toList).map fun fractions =>
            { sizeThresshold := config.sizeThresshold
              fractions := fractions.map Fin.val
              invert := invert
              thresshold_pos := thresshold_pos_of_config hconfig
              fractions_le := by
                intro f hf
                rcases List.mem_map.1 hf with ⟨x, _, rfl⟩
                exact Nat.le_of_lt_succ x.isLt }

end Parse

/-! ## Fields -/

/-- The comma separated fields of a string. -/
def fields (s : List Char) : List (List Char) :=
  s.splitOn ','

theorem fields_of_notMem {s : List Char} (h : ',' ∉ s) : fields s = [s] := by
  refine List.splitOnP_eq_singleton ?_
  intro c hc
  exact beq_eq_false_iff_ne.2 (ne_of_mem_of_not_mem hc h)

theorem fields_append_comma {field : List Char} (h : ',' ∉ field) (rest : List Char) :
    fields (field ++ ',' :: rest) = field :: fields rest := by
  refine List.splitOnP_append_cons_of_forall_mem ?_ ',' (by decide) rest
  intro c hc
  exact beq_eq_false_iff_ne.2 (ne_of_mem_of_not_mem hc h)

section Loops

variable (fraction : List Char → Fraction)

/-- The first loop counts the commas; only its own counter can overflow, since it is the larger
one. -/
theorem countCommas_eq {s : List Char} (hs : NUL ∉ s) :
    ∀ {i len : Nat}, len ≤ i → i ≤ INT_MAX →
      countCommas (s ++ [NUL]) i len =
        if i + s.length ≤ INT_MAX then some (len + s.count ',') else none := by
  induction s with
  | nil =>
      intro i len _ hi
      simp [countCommas, hi]
  | cons c s ih =>
      intro i len hlen hi
      have hc : c ≠ NUL := fun h => hs (by simp [h])
      -- The two branches of the test for a comma differ in what they add to `len`.
      have hstep : ∀ k ≤ 1, (do
          let len ← addInt len k
          let i ← addInt i 1
          countCommas (s ++ [NUL]) i len) =
            if i + (s.length + 1) ≤ INT_MAX then some (len + k + s.count ',') else none := by
        intro k hk
        by_cases hnext : i + 1 ≤ INT_MAX
        · have hsum : len + k ≤ INT_MAX := by omega
          simp only [addInt, if_pos hnext, if_pos hsum, Option.bind_eq_bind, Option.bind_some]
          rw [ih (fun h => hs (by simp [h])) (by omega) hnext]
          congr 2
          omega
        · -- one of the two additions overflows
          rw [if_neg (by omega)]
          simp only [addInt, if_neg hnext]
          split <;> rfl
      by_cases hcomma : c = ','
      · subst hcomma
        have hcount := hstep 1 (le_refl 1)
        simp only [List.cons_append, countCommas, if_neg hc, if_true, List.length_cons,
          List.count_cons_self, hcount]
        congr 2
        omega
      · have hcount := hstep 0 (Nat.zero_le 1)
        simp only [List.cons_append, countCommas, if_neg hc, if_neg hcomma, List.length_cons,
          hcount]
        rw [List.count_cons_of_ne hcomma]
        rfl

/-- One round takes the first field off. -/
theorem cutField_spec {s : Parse} {field rest : List Char} {done : List Fraction} {n : Nat}
    (hat : AtPlace NUL s.buf s.env (field ++ ',' :: rest)) (hfield : ',' ∉ field)
    (hwritten : s.fractions = done.map some ++ List.replicate (n + 1) none) :
    ∃ s', cutField fraction done.length s = some s' ∧ AtPlace NUL s'.buf s'.env rest ∧
      s'.fractions = (done ++ [fraction field]).map some ++ List.replicate n none := by
  have hlt : done.length < s.fractions.length := by simp [hwritten]
  refine ⟨⟨s.buf.set (s.env + field.length) NUL, s.env + field.length + 1,
    s.fractions.set done.length (some (fraction field))⟩, ?_, hat.rest, ?_⟩
  · simp [cutField, hat.find_eq hfield, hat.cut, storeAt, hlt]
  · simp [hwritten, List.replicate_succ]

/-- All rounds: one field is left, and one entry. -/
theorem cutFields_spec {n : Nat} :
    ∀ (s : Parse) {text : List Char} (done : List Fraction),
      AtPlace NUL s.buf s.env text → text.count ',' = n →
      s.fractions = done.map some ++ List.replicate (n + 1) none →
      ∃ s' front last, cutFields fraction n done.length s = some s' ∧
        fields text = front ++ [last] ∧ front.length = n ∧ AtPlace NUL s'.buf s'.env last ∧
        s'.fractions = (done ++ front.map fraction).map some ++ [none] := by
  induction n with
  | zero =>
      intro s text done hat hcount hwritten
      have hnone : ',' ∉ text := List.count_eq_zero.1 hcount
      exact ⟨s, [], text, rfl, fields_of_notMem hnone, rfl, hat, by simpa using hwritten⟩
  | succ n ih =>
      intro s text done hat hcount hwritten
      -- `done` holds what is stored so far; this round moves the first field of `text` over.
      have hmem : ',' ∈ text := List.count_pos_iff.1 (by omega)
      rcases List.eq_append_cons_of_mem hmem with ⟨field, rest, rfl, hfield⟩
      have hrest : rest.count ',' = n := by
        simpa [List.count_eq_zero.2 hfield] using hcount
      rcases cutField_spec fraction hat hfield hwritten with
        ⟨s₁, hcut, hat₁, hwritten₁⟩
      rcases ih s₁ _ hat₁ hrest hwritten₁ with ⟨s', front, last, hcuts, hfields, hlen, hat', hwritten'⟩
      refine ⟨s', field :: front, last, ?_, ?_, by simp [hlen], hat', by simpa using hwritten'⟩
      · rw [List.length_append] at hcuts
        simpa [cutFields, hcut] using hcuts
      · rw [fields_append_comma hfield, hfields]
        rfl

theorem mapM_id_map_some {α : Type*} (l : List α) : (l.map some).mapM id = some l := by
  induction l with
  | nil => rfl
  | cons x l ih => simp [ih]

/-- The counters of the parse stay in an `int`. -/
def Countable (value : List Char) : Prop :=
  value.length ≤ INT_MAX ∧ value.count ',' < INT_MAX

instance (value : List Char) : Decidable (Countable value) :=
  inferInstanceAs (Decidable (_ ∧ _))

theorem parse_eq {value : List Char} (hnul : NUL ∉ value) :
    parse fraction value =
      if Countable value then some ((fields value).map fraction) else none := by
  have hcommas := countCommas_eq hnul (le_refl 0) (Nat.zero_le INT_MAX)
  rw [Nat.zero_add, Nat.zero_add] at hcommas
  by_cases hlength : value.length ≤ INT_MAX
  · rw [if_pos hlength] at hcommas
    by_cases hcount : value.count ',' < INT_MAX
    · have hlen : addInt (value.count ',') 1 = some (value.count ',' + 1) := if_pos hcount
      have hat : AtPlace NUL (value ++ [NUL]) 0 value := ⟨rfl, hnul⟩
      rcases cutFields_spec fraction
          ⟨value ++ [NUL], 0, List.replicate (value.count ',' + 1) none⟩ [] hat rfl rfl with
        ⟨s', front, last, hcuts, hfields, hfront, hat', hwritten⟩
      -- the last field is stored behind the loop
      have hlast : storeAt s'.fractions (value.count ',') (fraction last) =
          some (((fields value).map fraction).map some) := by
        simp [storeAt, hwritten, hfields, ← hfront]
      rw [if_pos ⟨hlength, hcount⟩]
      simp only [List.length_nil] at hcuts
      simp only [parse, hcommas, hlen, hcuts, hat'.strAt_eq, hlast, Option.bind_eq_bind,
        Option.bind_some, Nat.add_sub_cancel]
      exact mapM_id_map_some _
    · have hlen : addInt (value.count ',') 1 = none := if_neg (by omega)
      rw [if_neg (fun h => hcount h.2)]
      simp [parse, hcommas, hlen]
  · rw [if_neg hlength] at hcommas
    rw [if_neg (fun h => hlength h.1)]
    simp [parse, hcommas]

end Loops

/-! ## Runs -/

section Runs

variable {fraction : List Char → Fraction} {value : List Char} {P : Settings} {calls : List Call}

/-- Where the large allocation number `n` belongs: it is split by the field with its number, and
without one it goes to the slow memory, or to the fast one when `invert` is set. -/
def placement (fraction : List Char → Fraction) (value : List Char) (P : Settings) (n size : Nat) :
    List (Nat × Policy) :=
  match (fields value)[n]? with
  | some field => plan P size (fraction field)
  | none => [(size, tier P.invert)]

/-- Every large allocation is bound where it belongs. -/
def FollowsFields (fraction : List Char → Fraction) (value : List Char) (P : Settings)
    (calls : List Call) (effects : List (List Effect)) : Prop :=
  ∀ (i : Nat) (call : Call), calls[i]? = some call → P.Large call →
    ∃ es, effects[i]? = some es ∧
      bindings es = layOut call.event.outPtr
        (placement fraction value P (P.largeCount (calls.take i)) call.event.size)

/-- The counter as an `int` is negative here. -/
theorem fractionAt_two_pow (P : Settings) : P.fractionAt (toInt (2 ^ 31)) = none := by
  have hint : toInt (2 ^ 31) = -2 ^ 31 := by decide
  rw [Settings.fractionAt, hint, if_neg (by omega), if_pos (by decide)]

theorem plan_entry (hfractions : P.fractions = ((fields value).map fraction).map Fin.val)
    (n size : Nat) :
    plan P size (P.fractions[n]?.getD 0) = placement fraction value P n size := by
  unfold placement
  cases hfield : (fields value)[n]? with
  | none => simp [hfractions, hfield, plan]
  | some field => simp [hfractions, hfield]

theorem largeCount_take_lt {i : Nat} {call : Call} (hcall : calls[i]? = some call)
    (hlarge : P.Large call) : P.largeCount (calls.take i) < P.largeCount calls := by
  rw [P.largeCount_eq, P.largeCount_eq]
  exact countP_take_lt hcall (decide_eq_true hlarge)

/-- A run has at most `2^31` large allocations: the next one would read before the array. -/
theorem PlainInv.largeCount_le {t : PlainState} (h : PlainInv P calls t) :
    P.largeCount calls ≤ 2 ^ 31 := by
  by_contra hmore
  rw [P.largeCount_eq] at hmore
  rcases exists_getElem?_countP_take (not_le.1 hmore) with ⟨i, call, hi, hlarge, hbefore⟩
  rw [← P.largeCount_eq] at hbefore
  have hlarge' : P.Large call := of_decide_eq_true hlarge
  have hlt : i < t.trace.length := by
    rw [h.length]
    exact (List.getElem?_eq_some_iff.1 hi).1
  have hcarried := h.carried i call _ hi (List.getElem?_eq_getElem hlt)
  rw [Carried, if_pos hlarge', hbefore, fractionAt_two_pow] at hcarried
  rcases hcarried with ⟨_, f, hf, _⟩
  cases hf

theorem PlainInv.followsFields {t : PlainState} (h : PlainInv P calls t)
    (hfractions : P.fractions = ((fields value).map fraction).map Fin.val) :
    FollowsFields fraction value P calls t.trace := by
  intro i call hcall hlarge
  have hlt : i < t.trace.length := by
    rw [h.length]
    exact (List.getElem?_eq_some_iff.1 hcall).1
  have hes : t.trace[i]? = some t.trace[i] := List.getElem?_eq_getElem hlt
  have hn : P.largeCount (calls.take i) < 2 ^ 31 :=
    (largeCount_take_lt hcall hlarge).trans_le h.largeCount_le
  have hcarried := h.carried i call _ hcall hes
  rw [Carried, if_pos hlarge, fractionAt_of_lt P hn] at hcarried
  rcases hcarried with ⟨_, f, hf, hbindings⟩
  obtain rfl := Option.some.inj hf
  exact ⟨_, hes, by rw [hbindings, plan_entry hfractions]⟩

/-- Up to `2^31` large allocations go through. -/
theorem exists_plain_run (P : Settings) (calls : List Call) (hfits : ∀ call ∈ calls, P.Fits call)
    (hcount : P.largeCount calls ≤ 2 ^ 31) :
    ∃ t, Run (plainBuild P) PlainState.init calls t := by
  refine Run.exists_of_progress ?_
  intro done call hfront t hrun
  have hmem : call ∈ calls := hfront.subset (by simp)
  refine ⟨hfits call hmem, ?_⟩
  show ∃ t', bindAllocPlain P t call = some t'
  by_cases hlarge : P.Large call
  · have hcurrent := (PlainInv.run hrun).current
    have hle : P.largeCount (done ++ [call]) ≤ P.largeCount calls := by
      rw [P.largeCount_eq, P.largeCount_eq]
      exact hfront.sublist.countP_le
    have hsnoc : P.largeCount (done ++ [call]) = P.largeCount done + 1 := by
      rw [P.largeCount_snoc, if_pos hlarge]
    exact ⟨_, bindAllocPlain_large hlarge (fractionAt_of_lt P (by omega))⟩
  · exact ⟨_, bindAllocPlain_small hlarge⟩

theorem plain_follows_iff (hfractions : P.fractions = ((fields value).map fraction).map Fin.val)
    (hfits : ∀ call ∈ calls, P.Fits call) :
    (∃ t, Run (plainBuild P) PlainState.init calls t ∧
        FollowsFields fraction value P calls t.trace) ↔ P.largeCount calls ≤ 2 ^ 31 := by
  constructor
  · rintro ⟨t, hrun, _⟩
    exact (PlainInv.run hrun).largeCount_le
  · intro hcount
    rcases exists_plain_run P calls hfits hcount with ⟨t, hrun⟩
    exact ⟨t, hrun, (PlainInv.run hrun).followsFields hfractions⟩

/-- The logging build issues the bindings of the plain one. -/
theorem logging_follows {g : Geometry} {s : LoggingState g}
    (hfractions : P.fractions = ((fields value).map fraction).map Fin.val)
    (hrun : Run (loggingBuild P g) (LoggingState.init g) calls s) :
    FollowsFields fraction value P calls s.trace := by
  rcases (Inv.run hrun).plain with ⟨t, hplain, -, hbindings⟩
  intro i call hcall hlarge
  rcases (PlainInv.run hplain).followsFields hfractions i call hcall hlarge with ⟨es, hes, hplaced⟩
  have hsame : (s.trace.map bindings)[i]? = some (bindings es) := by
    rw [← hbindings, List.getElem?_map, hes]
    rfl
  rw [List.getElem?_map] at hsame
  rcases Option.map_eq_some_iff.1 hsame with ⟨fs, hfs, hequal⟩
  exact ⟨fs, hfs, hequal.trans hplaced⟩

/-- It goes on as long as the plain one does. -/
theorem logging_progress_iff {g : Geometry} {s : LoggingState g}
    (hrun : Run (loggingBuild P g) (LoggingState.init g) calls s) (call : Call) :
    (∃ s', bindAllocLogging P s call = some s') ↔
      (P.Large call → P.largeCount calls < 2 ^ 31) := by
  have hinv := Inv.run hrun
  have hcount := hinv.current
  constructor
  · rintro ⟨s', hs'⟩ hlarge
    rcases bindAllocLogging_cases hs' with ⟨_, f, hf, _⟩ | ⟨hsmall, _⟩
    · -- the counter is at most `2^31`, and there it has no fraction
      rcases hinv.plain with ⟨t, hplain, _⟩
      have hle := (PlainInv.run hplain).largeCount_le
      refine lt_of_le_of_ne hle ?_
      intro hlast
      rw [hcount, hlast, fractionAt_two_pow] at hf
      cases hf
    · exact absurd hlarge hsmall
  · intro hlt
    refine hinv.progress call ?_
    intro hlarge
    exact hlt hlarge

end Runs

/-! ## From the variable to the bindings -/

/-- The settings that a value should lead to. -/
def settingsFor (fraction : List Char → Fraction) (env : Environment) (value : List Char)
    (invert : Bool) : Settings :=
  { sizeThresshold := readSizeThresshold env "SHAMBLES_SIZE_THRESHOLD"
    fractions := ((fields value).map fraction).map Fin.val
    invert := invert
    thresshold_pos := readSizeThresshold_pos env _
    fractions_le := by
      intro f hf
      rcases List.mem_map.1 hf with ⟨x, _, rfl⟩
      exact Nat.le_of_lt_succ x.isLt }

theorem shamblesInit_eq (fraction : List Char → Fraction) {m : Machine} {env : Environment}
    (value : String) (invert : Bool) (hconfig : (shamblesPluginConfigInit m env).isSome = true)
    (hvalue : fractionsVariable env = some (value, invert)) (hnul : NUL ∉ value.toList) :
    shamblesInit fraction m env =
      if Countable value.toList then some (settingsFor fraction env value.toList invert)
      else none := by
  unfold shamblesInit
  split
  · rename_i hnone
    rw [hnone] at hconfig
    cases hconfig
  · rename_i config hsome
    have hthresshold := congrArg ShamblesPluginConfig.sizeThresshold (configInit_eq hsome).2
    simp only [hvalue, parse_eq fraction hnul]
    by_cases hcount : Countable value.toList
    · simp only [if_pos hcount, Option.map_some, Option.some.injEq, settingsFor,
        Settings.mk.injEq, and_true]
      exact hthresshold
    · simp only [if_neg hcount, Option.map_none]

/-- For every value of the variable: the parse arrives at the fractions of its fields exactly if
its counters stay in an `int`.  Under these settings the large allocations of a sequence of calls
are bound as their fields say exactly if there are at most `2^31`, and the logging build does the
same as far as it comes. -/
theorem nth_allocation_nth_field (fraction : List Char → Fraction) (m : Machine)
    (env : Environment) (value : String) (invert : Bool)
    (hconfig : (shamblesPluginConfigInit m env).isSome = true)
    (hvalue : fractionsVariable env = some (value, invert)) (hnul : NUL ∉ value.toList) :
    (shamblesInit fraction m env = some (settingsFor fraction env value.toList invert) ↔
      value.toList.length ≤ INT_MAX ∧ value.toList.count ',' < INT_MAX) ∧
    ∀ P, P = settingsFor fraction env value.toList invert →
    ∀ calls, (∀ call ∈ calls, P.Fits call) →
      ((∃ t, Run (plainBuild P) PlainState.init calls t ∧
          FollowsFields fraction value.toList P calls t.trace) ↔ P.largeCount calls ≤ 2 ^ 31) ∧
      ∀ g s, Run (loggingBuild P g) (LoggingState.init g) calls s →
        FollowsFields fraction value.toList P calls s.trace ∧
        ∀ call, (∃ s', bindAllocLogging P s call = some s') ↔
          (P.Large call → P.largeCount calls < 2 ^ 31) := by
  refine ⟨?_, ?_⟩
  · rw [shamblesInit_eq fraction value invert hconfig hvalue hnul]
    by_cases hcount : Countable value.toList
    · exact iff_of_true (if_pos hcount) hcount
    · refine iff_of_false ?_ hcount
      rw [if_neg hcount]
      exact nofun
  · rintro P rfl calls hfits
    refine ⟨plain_follows_iff rfl hfits, ?_⟩
    intro g s hrun
    exact ⟨logging_follows rfl hrun, logging_progress_iff hrun⟩

/-- A fraction for the fields "0.25" and "1". -/
def quarterOrAll (field : List Char) : Fraction :=
  if field = ['1'] then 2 ^ 20 else 2 ^ 18

def quarterThenAll : Environment :=
  Environment.of [("SHAMBLES_ALLOC_FAST_FRACTIONS", "0.25,1")]

/-- The value "0.25,1" and three allocations: a quarter of the first is fast, all of the second and
none of the third. -/
theorem nth_allocation_two_fields :
    shamblesInit quarterOrAll (Machine.upTo 1) quarterThenAll =
        some (settingsFor quarterOrAll quarterThenAll "0.25,1".toList false) ∧
      ∃ t, Run (plainBuild (settingsFor quarterOrAll quarterThenAll "0.25,1".toList false))
          PlainState.init
          [⟨⟨.alloc, 0, 0x18000, 0x10000⟩, 1, 0x800⟩, ⟨⟨.alloc, 0, 0x38000, 0x10000⟩, 2, 0x900⟩,
            ⟨⟨.alloc, 0, 0x58000, 0x10000⟩, 3, 0xa00⟩] t ∧
        FollowsFields quarterOrAll "0.25,1".toList
          (settingsFor quarterOrAll quarterThenAll "0.25,1".toList false)
          [⟨⟨.alloc, 0, 0x18000, 0x10000⟩, 1, 0x800⟩, ⟨⟨.alloc, 0, 0x38000, 0x10000⟩, 2, 0x900⟩,
            ⟨⟨.alloc, 0, 0x58000, 0x10000⟩, 3, 0xa00⟩] t.trace ∧
        t.trace.map bindings =
          [[(⟨0x18000, 0x4000⟩, .fastmask), (⟨0x1c000, 0xc000⟩, .slowmask)],
            [(⟨0x38000, 0x10000⟩, .fastmask)], [(⟨0x58000, 0x10000⟩, .slowmask)]] := by
  rcases nth_allocation_nth_field quarterOrAll (Machine.upTo 1) quarterThenAll "0.25,1" false
    (by decide) (by decide) (by decide) with ⟨hparse, hruns⟩
  rcases hruns _ rfl
    [⟨⟨.alloc, 0, 0x18000, 0x10000⟩, 1, 0x800⟩, ⟨⟨.alloc, 0, 0x38000, 0x10000⟩, 2, 0x900⟩,
      ⟨⟨.alloc, 0, 0x58000, 0x10000⟩, 3, 0xa00⟩] (by decide) with ⟨hplain, _⟩
  rcases hplain.2 (by decide) with ⟨t, hrun, hfollows⟩
  rcases Run.of_exec_any (plainBuild (settingsFor quarterOrAll quarterThenAll "0.25,1".toList false))
    PlainState.init
    [⟨⟨.alloc, 0, 0x18000, 0x10000⟩, 1, 0x800⟩, ⟨⟨.alloc, 0, 0x38000, 0x10000⟩, 2, 0x900⟩,
      ⟨⟨.alloc, 0, 0x58000, 0x10000⟩, 3, 0xa00⟩]
    (fun t => t.trace.map bindings =
      [[(⟨0x18000, 0x4000⟩, .fastmask), (⟨0x1c000, 0xc000⟩, .slowmask)],
        [(⟨0x38000, 0x10000⟩, .fastmask)], [(⟨0x58000, 0x10000⟩, .slowmask)]]) (by decide) with
    ⟨t', hrun', htrace⟩
  obtain rfl := hrun.unique hrun'
  exact ⟨hparse.2 (by decide), t, hrun, hfollows, htrace⟩

/-- `2^31` allocations of 64 KiB under the value "0.5" go through; the next one reads
`fractions[-2^31]`. -/
theorem fractions_read_before_start :
    shamblesInit (fun _ => 2 ^ 19) (Machine.upTo 1)
        (Environment.of [("SHAMBLES_ALLOC_FAST_FRACTIONS", "0.5")]) =
      some ⟨0x10000, [2 ^ 19], false, by decide, by decide⟩ ∧
    ∃ t,
      Run (plainBuild ⟨0x10000, [2 ^ 19], false, by decide, by decide⟩) PlainState.init
        (List.replicate (2 ^ 31) ⟨⟨.alloc, 0, 0x100000, 0x10000⟩, 1, 0x800⟩) t ∧
      bindAllocPlain ⟨0x10000, [2 ^ 19], false, by decide, by decide⟩ t
        ⟨⟨.alloc, 0, 0x100000, 0x10000⟩, 1, 0x800⟩ = none := by
  refine ⟨?_, ?_⟩
  · rw [shamblesInit_eq _ "0.5" false (by decide) (by decide) (by decide), if_pos (by decide)]
    rfl
  · have hcount : Settings.largeCount ⟨0x10000, [2 ^ 19], false, by decide, by decide⟩
        (List.replicate (2 ^ 31) ⟨⟨.alloc, 0, 0x100000, 0x10000⟩, 1, 0x800⟩) = 2 ^ 31 := by
      rw [Settings.largeCount_eq, List.countP_replicate]
      rfl
    have hfits : ∀ call ∈ List.replicate (2 ^ 31) (⟨⟨.alloc, 0, 0x100000, 0x10000⟩, 1, 0x800⟩ : Call),
        Settings.Fits ⟨0x10000, [2 ^ 19], false, by decide, by decide⟩ call := by
      intro call hcall
      rw [List.eq_of_mem_replicate hcall]
      decide
    rcases exists_plain_run _ _ hfits hcount.le with ⟨t, hrun⟩
    refine ⟨t, hrun, ?_⟩
    have hcurrent : t.current = 2 ^ 31 := by
      rw [(PlainInv.run hrun).current, hcount]
    rw [bindAllocPlain, if_pos (by decide), hcurrent, fractionAt_two_pow]
    rfl

end StaticFractional
end Shambles
