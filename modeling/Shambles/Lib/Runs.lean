import Mathlib.Tactic

/-!
# Runs — event systems and their finite runs

An event system has a guard (which events may happen in a state) and a partial step: `none` means
that the step has no defined outcome.  `Run S s₀ es s` says that `s` is reached from `s₀` by the
events `es`, each of them enabled where it happens.

* `Run.invariant` is the one induction every safety result goes through;
* `System.exec` runs a list of events, so that a concrete run is found by evaluation;
* `System.restrict` keeps only the events that meet a further condition, so that "every run whose
  steps all meet the condition" is again a `Run`;
* `System.collect` gathers what every event of a run contributes in the state it finds;
* `Run.simulates` turns the runs of one system into runs of another that it follows;
* `loop_total` is the rule for a loop that stops by itself.
-/

namespace Shambles

variable {σ ε : Type*}

structure System (σ ε : Type*) where
  enabled : σ → ε → Prop
  step : σ → ε → Option σ

namespace System

/-- The same system, in which only events that satisfy `ok` are taken. -/
def restrict (S : System σ ε) (ok : σ → ε → Prop) : System σ ε :=
  { S with enabled := fun s e => S.enabled s e ∧ ok s e }

/-- Take the events one after the other; `none` as soon as one is not enabled or not defined. -/
def exec (S : System σ ε) [∀ s e, Decidable (S.enabled s e)] (s : σ) : List ε → Option σ
  | [] => some s
  | e :: es =>
      if S.enabled s e then
        match S.step s e with
        | some s' => exec S s' es
        | none => none
      else
        none

variable {β : Type*}

/-- One more event, and what it adds to a record. -/
def record (S : System σ ε) (f : σ → ε → List β) (acc : Option σ × List β) (e : ε) :
    Option σ × List β :=
  match acc.1 with
  | some s => (S.step s e, acc.2 ++ f s e)
  | none => acc

/-- What the events of a run contribute one after the other, each in the state it finds. -/
def collect (S : System σ ε) (f : σ → ε → List β) (s₀ : σ) (es : List ε) : List β :=
  (es.foldl (S.record f) (some s₀, [])).2

end System

inductive Run (S : System σ ε) (s₀ : σ) : List ε → σ → Prop where
  | nil : Run S s₀ [] s₀
  | snoc {es : List ε} {s s' : σ} {e : ε} :
      Run S s₀ es s → S.enabled s e → S.step s e = some s' → Run S s₀ (es ++ [e]) s'

namespace Run

variable {S : System σ ε} {s₀ s : σ} {es : List ε}

/-- What holds at the start and is kept by every enabled step holds after every run. -/
theorem invariant {P : List ε → σ → Prop} (hinit : P [] s₀)
    (hstep : ∀ es s e s', P es s → S.enabled s e → S.step s e = some s' → P (es ++ [e]) s')
    (h : Run S s₀ es s) : P es s := by
  induction h with
  | nil => exact hinit
  | snoc _ hen hst ih => exact hstep _ _ _ _ ih hen hst

/-- The state-only form of `Run.invariant`. -/
theorem invariant_state {P : σ → Prop} (hinit : P s₀)
    (hstep : ∀ s e s', P s → S.enabled s e → S.step s e = some s' → P s')
    (h : Run S s₀ es s) : P s := by
  have hrun : (fun _ => P) es s :=
    invariant (P := fun _ => P) hinit (fun _ s e s' hs hen hst => hstep s e s' hs hen hst) h
  exact hrun

theorem append_exec [∀ s e, Decidable (S.enabled s e)] {fs : List ε} :
    ∀ {es : List ε} {s t : σ}, Run S s₀ es s → S.exec s fs = some t → Run S s₀ (es ++ fs) t := by
  induction fs with
  | nil =>
      intro es s t hrun hexec
      obtain rfl : s = t := by simpa [System.exec] using hexec
      simpa using hrun
  | cons f fs ih =>
      intro es s t hrun hexec
      by_cases hen : S.enabled s f
      · cases hst : S.step s f with
        | none => simp [System.exec, hen, hst] at hexec
        | some s' =>
            have hrest : S.exec s' fs = some t := by simpa [System.exec, hen, hst] using hexec
            simpa using ih (Run.snoc hrun hen hst) hrest
      · simp [System.exec, hen] at hexec

/-- A list of events that evaluates is a run. -/
theorem of_exec (S : System σ ε) [∀ s e, Decidable (S.enabled s e)] (s₀ : σ) (es : List ε)
    (h : (S.exec s₀ es).isSome = true) :
    ∃ s, S.exec s₀ es = some s ∧ Run S s₀ es s := by
  rcases Option.isSome_iff_exists.1 h with ⟨s, hs⟩
  have hrun : Run S s₀ ([] ++ es) s := Run.append_exec Run.nil hs
  exact ⟨s, hs, by simpa using hrun⟩

/-- The same with a test of the state reached. -/
theorem of_exec_any (S : System σ ε) [∀ s e, Decidable (S.enabled s e)] (s₀ : σ) (es : List ε)
    (P : σ → Prop) [DecidablePred P] (h : (S.exec s₀ es).any (fun s => P s) = true) :
    ∃ s, Run S s₀ es s ∧ P s := by
  rcases (Option.any_eq_true _ _).1 h with ⟨s, hs, htest⟩
  have hrun : Run S s₀ ([] ++ es) s := Run.append_exec Run.nil hs
  exact ⟨s, hrun, of_decide_eq_true htest⟩

/-- Events that can always go on to the next one are a run. -/
theorem exists_of_progress
    (h : ∀ fs e, fs ++ [e] <+: es → ∀ s, Run S s₀ fs s → S.enabled s e ∧ ∃ s', S.step s e = some s') :
    ∃ s, Run S s₀ es s := by
  induction es using List.reverseRecOn with
  | nil => exact ⟨s₀, Run.nil⟩
  | append_singleton es e ih =>
      rcases ih fun fs f hf => h fs f (hf.trans (List.prefix_append es [e])) with ⟨s, hrun⟩
      rcases h es e (List.prefix_refl _) s hrun with ⟨hen, s', hstep⟩
      exact ⟨s', Run.snoc hrun hen hstep⟩

/-- A step has one outcome, so the events decide the state that is reached. -/
theorem unique {t : σ} (hs : Run S s₀ es s) (ht : Run S s₀ es t) : s = t := by
  induction hs generalizing t with
  | nil =>
      generalize hes : ([] : List ε) = es at ht
      cases ht with
      | nil => rfl
      | snoc _ _ _ => simp at hes
  | snoc _ _ hst ih =>
      generalize hes : _ ++ [_] = es at ht
      cases ht with
      | nil => simp at hes
      | snoc hrun _ hst' =>
          obtain ⟨rfl, rfl⟩ : _ ∧ _ := by simpa using hes
          obtain rfl := ih hrun
          exact Option.some.inj (hst.symm.trans hst')

/-- A restricted run is a run. -/
theorem of_restrict {ok : σ → ε → Prop} (h : Run (S.restrict ok) s₀ es s) : Run S s₀ es s := by
  induction h with
  | nil => exact Run.nil
  | snoc _ hen hst ih => exact Run.snoc ih hen.1 hst

/-- A condition that is weaker restricts less. -/
theorem restrict_mono {ok ok' : σ → ε → Prop} (himp : ∀ s e, ok s e → ok' s e)
    (h : Run (S.restrict ok) s₀ es s) : Run (S.restrict ok') s₀ es s := by
  induction h with
  | nil => exact Run.nil
  | snoc _ hen hst ih => exact Run.snoc ih ⟨hen.1, himp _ _ hen.2⟩ hst

/-- A longer run is restricted if the shorter one is and the last event meets the condition. -/
theorem restrict_snoc_iff {ok : σ → ε → Prop} {e : ε} {s' : σ} (h : Run S s₀ es s)
    (hen : S.enabled s e) (hst : S.step s e = some s') :
    Run (S.restrict ok) s₀ (es ++ [e]) s' ↔ Run (S.restrict ok) s₀ es s ∧ ok s e := by
  constructor
  · intro hrun
    generalize hes : es ++ [e] = fs at hrun
    cases hrun with
    | nil => simp at hes
    | snoc hshort hlast _ =>
        obtain ⟨rfl, rfl⟩ : _ ∧ _ := by simpa using hes
        obtain rfl := h.unique hshort.of_restrict
        exact ⟨hshort, hlast.2⟩
  · rintro ⟨hshort, hok⟩
    exact Run.snoc hshort ⟨hen, hok⟩ hst

section Collect

variable {β : Type*} {f : σ → ε → List β}

theorem foldl_record (h : Run S s₀ es s) :
    es.foldl (S.record f) (some s₀, []) = (some s, S.collect f s₀ es) := by
  induction h with
  | nil => rfl
  | snoc _ _ hst ih =>
      refine Prod.ext ?_ rfl
      rw [List.foldl_append, ih]
      simpa [System.record] using hst

theorem collect_snoc (h : Run S s₀ es s) (e : ε) :
    S.collect f s₀ (es ++ [e]) = S.collect f s₀ es ++ f s e := by
  rw [System.collect, List.foldl_append, h.foldl_record]
  rfl

/-- A system follows another one if each step of it is one step there or none; `f` says which. -/
theorem simulates {τ : Type*} {T : System τ β} (abs : σ → τ) {P : σ → Prop} (hinit : P s₀)
    (hstep : ∀ s e s', P s → S.enabled s e → S.step s e = some s' →
      P s' ∧ (f s e = [] ∧ abs s' = abs s ∨
        ∃ d, f s e = [d] ∧ T.enabled (abs s) d ∧ T.step (abs s) d = some (abs s')))
    (h : Run S s₀ es s) : P s ∧ Run T (abs s₀) (S.collect f s₀ es) (abs s) := by
  induction h with
  | nil => exact ⟨hinit, Run.nil⟩
  | snoc hrun hen hst ih =>
      rcases ih with ⟨hinv, hsim⟩
      rcases hstep _ _ _ hinv hen hst with ⟨hinv', ⟨hnone, hsame⟩ | ⟨d, hone, hend, hstd⟩⟩
      · rw [hrun.collect_snoc, hnone, List.append_nil, hsame]
        exact ⟨hinv', hsim⟩
      · rw [hrun.collect_snoc, hone]
        exact ⟨hinv', Run.snoc hsim hend hstd⟩

/-- A condition that says "nothing is contributed" restricts to the runs that collect nothing. -/
theorem restrict_iff_collect {ok : σ → ε → Prop}
    (hok : ∀ es s e, Run S s₀ es s → S.enabled s e → (ok s e ↔ f s e = []))
    (h : Run S s₀ es s) : Run (S.restrict ok) s₀ es s ↔ S.collect f s₀ es = [] := by
  induction h with
  | nil => exact iff_of_true Run.nil rfl
  | snoc hrun hen hst ih =>
      rw [restrict_snoc_iff hrun hen hst, hrun.collect_snoc, List.append_eq_nil_iff, ih,
        hok _ _ _ hrun hen]

end Collect

end Run

/-! ## Loops -/

/-- Repeat `step` until it stops; `none` if it has not stopped after `fuel` tests. -/
def loop (step : σ → Option σ) : Nat → σ → Option σ
  | 0, _ => none
  | fuel + 1, s =>
      match step s with
      | some s' => loop step fuel s'
      | none => some s

/-- A loop with an invariant and a measure that goes down stops, where the invariant holds. -/
theorem loop_total {step : σ → Option σ} {P : σ → Prop} {measure : σ → Nat}
    (hstep : ∀ s s', P s → step s = some s' → P s' ∧ measure s' < measure s) {s : σ} (hs : P s) :
    ∃ s', (∀ fuel, measure s < fuel → loop step fuel s = some s') ∧ P s' ∧ step s' = none := by
  induction hn : measure s using Nat.strong_induction_on generalizing s with
  | _ n ih =>
      cases hnext : step s with
      | none =>
          refine ⟨s, ?_, hs, hnext⟩
          intro fuel hfuel
          cases fuel with
          | zero => omega
          | succ fuel => simp [loop, hnext]
      | some s' =>
          rcases hstep s s' hs hnext with ⟨hs', hlt⟩
          rcases ih (measure s') (by omega) hs' rfl with ⟨t, hloop, ht⟩
          refine ⟨t, ?_, ht⟩
          intro fuel hfuel
          cases fuel with
          | zero => omega
          | succ fuel =>
              have hrest := hloop fuel (by omega)
              simpa [loop, hnext] using hrest

/-! ## Histories

A run's events, and a state's own record of what happened, grow at their end. -/

section

variable {α : Type*} {l : List α} {i : Nat} {x y : α}

theorem getElem?_concat_of_some (y : α) (h : l[i]? = some x) : (l ++ [y])[i]? = some x := by
  have hlt := (List.getElem?_eq_some_iff.1 h).1
  rw [List.getElem?_append_left hlt, h]

theorem getElem?_concat_cases (h : (l ++ [y])[i]? = some x) :
    l[i]? = some x ∨ i = l.length ∧ x = y := by
  rcases Nat.lt_or_ge i l.length with hlt | hge
  · exact Or.inl (by rwa [List.getElem?_append_left hlt] at h)
  · have hbound := (List.getElem?_eq_some_iff.1 h).1
    have hlast : i = l.length := by
      simp at hbound
      omega
    have hxy : y = x := by simpa [hlast] using h
    exact Or.inr ⟨hlast, hxy.symm⟩

/-- An element with the property is not among those before it. -/
theorem countP_take_lt {p : α → Bool} {i : Nat} {x : α} (hx : l[i]? = some x) (hp : p x = true) :
    (l.take i).countP p < l.countP p := by
  rcases List.getElem?_eq_some_iff.1 hx with ⟨hi, rfl⟩
  have hnext : (l.take (i + 1)).countP p = (l.take i).countP p + 1 := by
    rw [List.take_succ_eq_append_getElem hi, List.countP_append]
    simp [hp]
  have hle : (l.take (i + 1)).countP p ≤ l.countP p := (List.take_sublist (i + 1) l).countP_le
  omega

/-- The element before which `n` others have the property, if more than `n` have it. -/
theorem exists_getElem?_countP_take {p : α → Bool} {n : Nat} (h : n < l.countP p) :
    ∃ (i : Nat) (x : α), l[i]? = some x ∧ p x = true ∧ (l.take i).countP p = n := by
  induction l using List.reverseRecOn with
  | nil => simp at h
  | append_singleton l y ih =>
      by_cases hold : n < l.countP p
      · rcases ih hold with ⟨i, x, hx, hp, hcount⟩
        have hlt := (List.getElem?_eq_some_iff.1 hx).1
        refine ⟨i, x, getElem?_concat_of_some y hx, hp, ?_⟩
        rw [List.take_append_of_le_length hlt.le, hcount]
      · -- the last element is the one
        have hy : p y = true := by
          by_contra hy
          simp [hy, hold] at h
        have hn : l.countP p = n := by
          simp [hy] at h
          omega
        exact ⟨l.length, y, by simp, hy, by simpa using hn⟩

end

end Shambles
