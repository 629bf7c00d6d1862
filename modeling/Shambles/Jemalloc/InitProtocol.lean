import Shambles.Jemalloc.LogAlloc

/-!
# InitProtocol — one initialisation, and what becomes of the reports after it

In every interleaving `shambles_init` runs at most once, and `reportAllocFunc` is not called before
it has returned.  Whether the plugin receives anything afterwards is another matter: a call tests
`shambles_inited_n` in one step and exchanges it with 2 in the next, and an exchange that comes
after the store of 0 is never undone.
-/

namespace Shambles
namespace Jemalloc

open CallStacks

/-! ## At most one initialisation -/

/-- The activation has won the exchange and has not stored 0 yet. -/
def Pc.initialising : Pc → Bool
  | .init | .store => true
  | _ => false

def initialising (f : Activation) : Bool :=
  f.pc.initialising

variable {s s' : State} {t : Nat} {f : Activation}

theorem countP_runTop (htop : s.top t = some f) :
    (runTop s t f).active.countP initialising + f.pc.initialising.toNat =
      s.active.countP initialising + ((nextPc s f.pc).elim 0 fun pc => pc.initialising.toNat) := by
  have hone : ∀ x : Activation, [x].countP initialising = x.pc.initialising.toNat := by
    intro x
    cases h : x.pc.initialising with
    | false => simp [initialising, h]
    | true => simp [initialising, h]
  have hstep := countP_resume (r := (nextPc s f.pc).map f.goto) initialising htop
  rw [hone] at hstep
  cases hnext : nextPc s f.pc with
  | none => simpa [runTop, hnext] using hstep
  | some pc =>
      have hnew : [f.goto pc].countP initialising = pc.initialising.toNat := hone (f.goto pc)
      simpa [runTop, hnext, hnew] using hstep

/-- Only the exchange and the store write what the other threads test. -/
theorem shared_of_passive (t : Nat) (hx : f.pc ≠ .exchange) (hst : f.pc ≠ .store) :
    (runTop s t f).shamblesInitedN = s.shamblesInitedN ∧ (runTop s t f).inits = s.inits ∧
      (runTop s t f).stored = s.stored := by
  cases hpc : f.pc with
  | exchange => exact absurd hpc hx
  | store => exact absurd hpc hst
  | test | load | init | report | reporting => simp [runTop, effect, hpc]

theorem countP_of_passive (htop : s.top t = some f) (hx : f.pc ≠ .exchange)
    (hst : f.pc ≠ .store) :
    (runTop s t f).active.countP initialising = s.active.countP initialising := by
  have hstep := countP_runTop htop
  cases hpc : f.pc with
  | exchange => exact absurd hpc hx
  | store => exact absurd hpc hst
  | test =>
      rw [hpc, nextPc] at hstep
      split_ifs at hstep <;> simpa [Pc.initialising] using hstep
  | load =>
      rw [hpc, nextPc] at hstep
      split_ifs at hstep <;> simpa [Pc.initialising] using hstep
  | init | report | reporting => simpa [hpc, nextPc, Pc.initialising] using hstep

structure InitOnce (s : State) : Prop where
  le_one : s.inits ≤ 1
  fresh : s.shamblesInitedN = 1 ↔ s.inits = 0
  /-- Each initialisation is under way or has stored 0. -/
  count : s.active.countP initialising + s.stored.toList.length = s.inits
  stored_of_zero : s.shamblesInitedN = 0 → s.stored.isSome

namespace InitOnce

theorem init : InitOnce initState := by
  exact ⟨by decide, by decide, rfl, by decide⟩

theorem beginCall (h : InitOnce s) (event : AllocEvent) : InitOnce (beginCall s t event) := by
  refine ⟨h.le_one, h.fresh, ?_, h.stored_of_zero⟩
  have hcount := h.count
  simpa [Jemalloc.beginCall, initialising, Pc.initialising] using hcount

/-- The winner enters `shambles_init`; for the others only the flag changes, and not from 1. -/
theorem exchange (h : InitOnce s) (htop : s.top t = some f) (hpc : f.pc = .exchange) :
    InitOnce (runTop s t f) := by
  have hstep := countP_runTop htop
  have hcount := h.count
  have hone := h.le_one
  have hfresh := h.fresh
  have hflag : (runTop s t f).shamblesInitedN = 2 := by simp [runTop, effect, hpc]
  have hstored : (runTop s t f).stored = s.stored := by simp [runTop, effect, hpc]
  by_cases hwin : s.shamblesInitedN = 1
  · have hinits : (runTop s t f).inits = s.inits + 1 := by simp [runTop, effect, hpc, hwin]
    simp [hpc, nextPc, hwin, Pc.initialising] at hstep
    refine ⟨by omega, by omega, ?_, by omega⟩
    rw [hstored, hinits]
    omega
  · have hinits : (runTop s t f).inits = s.inits := by simp [runTop, effect, hpc, hwin]
    simp [hpc, nextPc, hwin, Pc.initialising] at hstep
    refine ⟨by omega, by omega, ?_, by omega⟩
    rw [hstored, hinits]
    omega

theorem store (h : InitOnce s) (htop : s.top t = some f) (hpc : f.pc = .store) :
    InitOnce (runTop s t f) := by
  have hstep := countP_runTop htop
  have hcount := h.count
  have hone := h.le_one
  have hflag : (runTop s t f).shamblesInitedN = 0 := by simp [runTop, effect, hpc]
  have hstored : (runTop s t f).stored = some s.calls.length := by simp [runTop, effect, hpc]
  have hinits : (runTop s t f).inits = s.inits := by simp [runTop, effect, hpc]
  simp [hpc, nextPc, Pc.initialising] at hstep
  -- This activation is counted, so it is the only one, and 0 has not been stored before.
  refine ⟨by omega, by omega, ?_, by simp [hstored]⟩
  rw [hstored, hinits, Option.toList_some, List.length_singleton]
  omega

theorem runTop (h : InitOnce s) (htop : s.top t = some f) : InitOnce (runTop s t f) := by
  by_cases hx : f.pc = .exchange
  · exact h.exchange htop hx
  by_cases hst : f.pc = .store
  · exact h.store htop hst
  rcases shared_of_passive (s := s) t hx hst with ⟨hflag, hinits, hstored⟩
  refine ⟨?_, ?_, ?_, ?_⟩
  · simpa [hinits] using h.le_one
  · simpa [hflag, hinits] using h.fresh
  · simpa [hinits, hstored, countP_of_passive htop hx hst] using h.count
  · simpa [hflag, hstored] using h.stored_of_zero

theorem step {a : Action} (h : InitOnce s) (hstep : Jemalloc.step s a = some s') : InitOnce s' :=
  step_cases hstep ⟨h.le_one, h.fresh, h.count, h.stored_of_zero⟩
    (fun _ event _ => h.beginCall event) (fun _ _ _ htop => h.runTop htop)

end InitOnce

/-! ## No report before the initialisation -/

/-- The activation has come past the return of `shambles_init`. -/
def Pc.afterInit : Pc → Bool
  | .store | .report | .reporting => true
  | _ => false

structure InitFirst (s : State) : Prop where
  stored : s.stored.isSome → s.initReturned = true
  active : ∀ f ∈ s.active, f.pc.afterInit → s.initReturned = true
  reported : s.reported ≠ [] → s.initReturned = true

namespace InitFirst

theorem init : InitFirst initState := by
  exact ⟨by decide, by decide, by decide⟩

theorem beginCall (h : InitFirst s) (event : AllocEvent) : InitFirst (beginCall s t event) := by
  refine ⟨h.stored, ?_, h.reported⟩
  intro f hf hafter
  rcases List.mem_cons.1 hf with rfl | hf
  · simp [Pc.afterInit] at hafter
  · exact h.active f hf hafter

theorem initReturned_mono (hs : s.initReturned = true) :
    (Jemalloc.runTop s t f).initReturned = true := by
  cases hpc : f.pc <;> simp [Jemalloc.runTop, effect, hpc, hs]

/-- A step that reports nothing, stores nothing and does not go past `shambles_init`. -/
theorem of_quiet (h : InitFirst s) (hreturned : (effect s f).initReturned = s.initReturned)
    (hstored : (effect s f).stored = s.stored) (hreported : (effect s f).reported = s.reported)
    (hnext : ∀ pc ∈ nextPc s f.pc, pc.afterInit = false) : InitFirst (Jemalloc.runTop s t f) := by
  refine ⟨?_, ?_, ?_⟩
  · simpa [Jemalloc.runTop, hreturned, hstored] using h.stored
  · have hactive : ∀ g ∈ (Jemalloc.runTop s t f).active,
        g.pc.afterInit → s.initReturned = true := by
      refine forall_resume h.active ?_
      intro g hg hafter
      rcases Option.map_eq_some_iff.1 hg with ⟨pc, hpc, rfl⟩
      exact absurd hafter (by simp [Activation.goto, hnext pc hpc])
    simpa [Jemalloc.runTop, hreturned] using hactive
  · simpa [Jemalloc.runTop, hreturned, hreported] using h.reported

theorem runTop (h : InitFirst s) (honce : InitOnce s) (htop : s.top t = some f) :
    InitFirst (runTop s t f) := by
  by_cases hs : s.initReturned = true
  · have hs' := initReturned_mono (t := t) (f := f) hs
    exact ⟨fun _ => hs', fun _ _ _ => hs', fun _ => hs'⟩
  have hself : f.pc.afterInit = false := by
    cases hafter : f.pc.afterInit with
    | false => rfl
    | true => exact absurd (h.active f (mem_of_top htop) hafter) hs
  cases hpc : f.pc with
  | test =>
      refine h.of_quiet (by simp [effect, hpc]) (by simp [effect, hpc]) (by simp [effect, hpc]) ?_
      rw [hpc, nextPc]
      split_ifs <;> simp [Pc.afterInit]
  | load =>
      -- A flag of 0 has been stored, which only happens after the return.
      have hflag : s.shamblesInitedN ≠ 0 := fun hzero => hs (h.stored (honce.stored_of_zero hzero))
      refine h.of_quiet (by simp [effect, hpc]) (by simp [effect, hpc]) (by simp [effect, hpc]) ?_
      simp [hpc, nextPc, hflag, Pc.afterInit]
  | exchange =>
      refine h.of_quiet (by simp [effect, hpc]) (by simp [effect, hpc]) (by simp [effect, hpc]) ?_
      rw [hpc, nextPc]
      split_ifs <;> simp [Pc.afterInit]
  | init =>
      have hs' : (Jemalloc.runTop s t f).initReturned = true := by
        simp [Jemalloc.runTop, effect, hpc]
      exact ⟨fun _ => hs', fun _ _ _ => hs', fun _ => hs'⟩
  | store | report | reporting => simp [hpc, Pc.afterInit] at hself

theorem step {a : Action} (h : InitFirst s) (honce : InitOnce s)
    (hstep : Jemalloc.step s a = some s') : InitFirst s' :=
  step_cases hstep ⟨h.stored, h.active, h.reported⟩ (fun _ event _ => h.beginCall event)
    (fun _ _ _ htop => h.runTop honce htop)

end InitFirst

/-! ## Delivery -/

theorem calls_runTop : (runTop s t f).calls = s.calls := by
  cases hpc : f.pc <;> simp [runTop, effect, hpc]

theorem reported_mono {r : Nat × AllocEvent} (hr : r ∈ s.reported) :
    r ∈ (runTop s t f).reported := by
  cases hpc : f.pc <;> simp [runTop, effect, hpc, hr]

/-- Activations carry the number and the event of their call, and those inside `reportAllocFunc`
have passed it on. -/
structure Numbered (s : State) : Prop where
  event : ∀ f ∈ s.active, s.calls[f.call]? = some f.event
  reporting : ∀ f ∈ s.active, f.pc = .reporting → (f.call, f.event) ∈ s.reported

namespace Numbered

theorem init : Numbered initState := by
  exact ⟨by decide, by decide⟩

theorem beginCall (h : Numbered s) (event : AllocEvent) : Numbered (beginCall s t event) := by
  refine ⟨?_, ?_⟩
  · intro f hf
    rcases List.mem_cons.1 hf with rfl | hf
    · simp [Jemalloc.beginCall]
    · exact getElem?_concat_of_some event (h.event f hf)
  · intro f hf hpc
    rcases List.mem_cons.1 hf with rfl | hf
    · simp at hpc
    · exact h.reporting f hf hpc

theorem runTop (h : Numbered s) (htop : s.top t = some f) : Numbered (runTop s t f) := by
  have hf := mem_of_top htop
  refine ⟨?_, ?_⟩
  · rw [calls_runTop]
    refine forall_resume h.event ?_
    intro g hg
    rcases Option.map_eq_some_iff.1 hg with ⟨pc, _, rfl⟩
    exact h.event f hf
  · refine forall_resume (fun g hg hpc => reported_mono (h.reporting g hg hpc)) ?_
    intro g hg hreporting
    rcases Option.map_eq_some_iff.1 hg with ⟨pc, hnext, rfl⟩
    -- `reporting` is entered from `report` only.
    obtain rfl : pc = .reporting := hreporting
    have hpc : f.pc = .report := by
      cases hpc : f.pc <;> simp [hpc, nextPc] at hnext ⊢ <;> split_ifs at hnext
    simp [Jemalloc.runTop, effect, hpc, Activation.goto]

theorem step {a : Action} (h : Numbered s) (hstep : Jemalloc.step s a = some s') : Numbered s' :=
  step_cases hstep ⟨h.event, h.reporting⟩ (fun _ event _ => h.beginCall event)
    (fun _ _ _ htop => h.runTop htop)

end Numbered

/-- At the store of 0 no call stands between its test and its exchange, and no call tests
`malloc_init_state` before the end of jemalloc's own initialisation once 0 has been stored. -/
def StepOk (s : State) : Action → Prop
  | .run t => ∀ f ∈ s.top t,
      (f.pc = .store → ∀ g ∈ s.active, g.pc ≠ .exchange) ∧
        (f.pc = .test → s.shamblesInitedN = 0 → s.mallocInitialized = true)
  | _ => True

instance (s : State) : (a : Action) → Decidable (StepOk s a)
  | .mallocInit => isTrue trivial
  | .call _ _ => isTrue trivial
  | .run t => inferInstanceAs (Decidable (∀ f ∈ s.top t,
      (f.pc = .store → ∀ g ∈ s.active, g.pc ≠ .exchange) ∧
        (f.pc = .test → s.shamblesInitedN = 0 → s.mallocInitialized = true)))

instance (s : State) (a : Action) : Decidable ((system.restrict StepOk).enabled s a) :=
  inferInstanceAs (Decidable (Enabled s a ∧ StepOk s a))

/-- The call with number `c` is under way or has been reported. -/
def Accounted (s : State) (c : Nat) (event : AllocEvent) : Prop :=
  (∃ f ∈ s.active, f.call = c) ∨ (c, event) ∈ s.reported

theorem Accounted.runTop {c : Nat} {event : AllocEvent} (h : Accounted s c event)
    (hnum : Numbered s) (hcall : s.calls[c]? = some event) (htop : s.top t = some f)
    (hx : f.pc ≠ .exchange) (hst : f.pc ≠ .store) : Accounted (runTop s t f) c event := by
  rcases h with ⟨g, hg, rfl⟩ | hreported
  · rcases mem_resume_of_mem (r := (nextPc s f.pc).map f.goto) htop hg with rfl | hg
    · cases hnext : nextPc s g.pc with
      | some pc =>
          refine Or.inl ⟨g.goto pc, ?_, rfl⟩
          simpa [Jemalloc.runTop, hnext] using mem_resume_new (y := g.goto pc) htop
      | none =>
          -- Apart from the exchange and the store, only `reporting` returns.
          have hpc : g.pc = .reporting := by
            cases hpc : g.pc <;> simp_all [nextPc]
          have hevent : event = g.event := by
            have hsame := hcall.symm.trans (hnum.event g hg)
            exact Option.some.inj hsame
          refine Or.inr (reported_mono ?_)
          rw [hevent]
          exact hnum.reporting g hg hpc
    · exact Or.inl ⟨g, hg, rfl⟩
  · exact Or.inr (reported_mono hreported)

/-- Once 0 has been stored, the flag is 0, no call is about to exchange it, and no later call gets
lost. -/
structure Ready (s : State) : Prop where
  flag : s.stored.isSome → s.shamblesInitedN = 0
  exchange : s.stored.isSome → ∀ f ∈ s.active, f.pc ≠ .exchange
  accounted : ∀ k, s.stored = some k → ∀ c event, k ≤ c → s.calls[c]? = some event →
    Accounted s c event

namespace Ready

theorem init : Ready initState := by
  refine ⟨by decide, by decide, ?_⟩
  intro k hk
  simp [initState] at hk

theorem beginCall (h : Ready s) (event : AllocEvent) : Ready (beginCall s t event) := by
  refine ⟨h.flag, ?_, ?_⟩
  · intro hstored f hf
    rcases List.mem_cons.1 hf with rfl | hf
    · simp
    · exact h.exchange hstored f hf
  · intro k hk c event' hkc hcall
    rcases getElem?_concat_cases hcall with hold | ⟨hc, _⟩
    · rcases h.accounted k hk c event' hkc hold with ⟨f, hf, hfc⟩ | hreported
      · exact Or.inl ⟨f, List.mem_cons_of_mem _ hf, hfc⟩
      · exact Or.inr hreported
    · exact Or.inl ⟨_, List.mem_cons_self, hc.symm⟩

/-- A step other than the exchange and the store does not lead to an exchange any more. -/
theorem next_ne_exchange (h : Ready s) (htop : s.top t = some f) (hok : StepOk s (.run t))
    (hstored : s.stored.isSome) : ∀ pc ∈ nextPc s f.pc, pc ≠ .exchange := by
  have hflag := h.flag hstored
  cases hpc : f.pc with
  | test =>
      have hinit := (hok f htop).2 hpc hflag
      simp [nextPc, hinit]
  | load => simp [nextPc, hflag]
  | exchange => exact absurd hpc (h.exchange hstored f (mem_of_top htop))
  | init | store | report | reporting => simp [nextPc]

theorem of_store (htop : s.top t = some f) (hok : StepOk s (.run t)) (hpc : f.pc = .store) :
    Ready (runTop s t f) := by
  have hstored : (runTop s t f).stored = some s.calls.length := by simp [runTop, effect, hpc]
  refine ⟨?_, ?_, ?_⟩
  · simp [runTop, effect, hpc]
  · intro _
    refine forall_resume ((hok f htop).1 hpc) ?_
    simp [hpc, nextPc]
  · intro k hk c event hkc hcall
    obtain rfl : s.calls.length = k := by simpa [hstored] using hk
    rw [calls_runTop, List.getElem?_eq_none hkc] at hcall
    simp at hcall

theorem runTop (h : Ready s) (hnum : Numbered s) (htop : s.top t = some f)
    (hok : StepOk s (.run t)) : Ready (runTop s t f) := by
  by_cases hst : f.pc = .store
  · exact of_store htop hok hst
  have hstored : (Jemalloc.runTop s t f).stored = s.stored := by
    cases hpc : f.pc <;> simp_all [Jemalloc.runTop, effect]
  by_cases hx : f.pc = .exchange
  · -- The exchange comes before the store, so there is nothing to show.
    have hnone : ¬ s.stored.isSome := fun hsome => h.exchange hsome f (mem_of_top htop) hx
    refine ⟨?_, ?_, ?_⟩
    · exact fun hsome => absurd (by simpa [hstored] using hsome) hnone
    · exact fun hsome => absurd (by simpa [hstored] using hsome) hnone
    · intro k hk
      rw [hstored] at hk
      simp [hk] at hnone
  · rcases shared_of_passive (s := s) t hx hst with ⟨hflag, _, _⟩
    refine ⟨?_, ?_, ?_⟩
    · simpa [hflag, hstored] using h.flag
    · intro hsome
      rw [hstored] at hsome
      refine forall_resume (h.exchange hsome) ?_
      intro g hg
      rcases Option.map_eq_some_iff.1 hg with ⟨pc, hpc, rfl⟩
      exact h.next_ne_exchange htop hok hsome pc hpc
    · intro k hk c event hkc hcall
      rw [hstored] at hk
      rw [calls_runTop] at hcall
      exact (h.accounted k hk c event hkc hcall).runTop hnum hcall htop hx hst

theorem step {a : Action} (h : Ready s) (hnum : Numbered s) (hok : StepOk s a)
    (hstep : Jemalloc.step s a = some s') : Ready s' := by
  refine step_cases hstep ⟨h.flag, h.exchange, h.accounted⟩
    (fun _ event _ => h.beginCall event) ?_
  rintro t f rfl htop
  exact h.runTop hnum htop hok

end Ready

/-! ## The protocol -/

/-- What holds in every interleaving. -/
structure Reachable (s : State) : Prop where
  once : InitOnce s
  first : InitFirst s
  numbered : Numbered s

theorem Reachable.step {a : Action} (h : Reachable s) (hstep : Jemalloc.step s a = some s') :
    Reachable s' :=
  ⟨h.once.step hstep, h.first.step h.once hstep, h.numbered.step hstep⟩

theorem Reachable.init : Reachable initState :=
  ⟨InitOnce.init, InitFirst.init, Numbered.init⟩

theorem Reachable.run {as : List Action} (h : Run system initState as s) : Reachable s :=
  Run.invariant_state Reachable.init (fun _ _ _ hs _ hstep => hs.step hstep) h

theorem Ready.run {as : List Action} (h : Run (system.restrict StepOk) initState as s) :
    Ready s := by
  have hboth : Reachable s ∧ Ready s := by
    refine Run.invariant_state (P := fun s => Reachable s ∧ Ready s)
      ⟨Reachable.init, Ready.init⟩ ?_ h
    intro s a s' hs hen hstep
    exact ⟨hs.1.step hstep, hs.2.step hs.1.numbered hen.2 hstep⟩
  exact hboth.2

structure InitSafe (s : State) : Prop where
  init_once : s.inits ≤ 1
  /-- `reportAllocFunc` has not been called, and is not about to be called, before the return. -/
  report_after_init : (∀ f ∈ s.active, f.pc = .report → s.initReturned = true) ∧
    (s.reported ≠ [] → s.initReturned = true)

structure Delivers (s : State) : Prop where
  stays_zero : s.stored.isSome → s.shamblesInitedN = 0
  /-- A call that began after the store and has returned has been reported. -/
  delivered : ∀ k, s.stored = some k → ∀ c event, k ≤ c → s.calls[c]? = some event →
    (∀ f ∈ s.active, f.call ≠ c) → (c, event) ∈ s.reported

/-- The initialisation is safe in every interleaving, and in those whose steps are all `StepOk` the
plugin receives every event after it. -/
theorem logAlloc_protocol {as : List Action} (h : Run system initState as s) :
    InitSafe s ∧ (Run (system.restrict StepOk) initState as s → Delivers s) := by
  have hreach := Reachable.run h
  refine ⟨⟨hreach.once.le_one, ?_, hreach.first.reported⟩, ?_⟩
  · intro f hf hpc
    exact hreach.first.active f hf (by simp [hpc, Pc.afterInit])
  · intro hok
    have hready := Ready.run hok
    refine ⟨hready.flag, ?_⟩
    intro k hk c event hkc hcall hdone
    rcases hready.accounted k hk c event hkc hcall with ⟨f, hf, hfc⟩ | hreported
    · exact absurd hfc (hdone f hf)
    · exact hreported

/-- A second thread comes in during the initialisation and drops its event; the event of a third
one is reported. -/
theorem logAlloc_protocol_three_threads :
    ∃ s, Run (system.restrict StepOk) initState
        [.mallocInit, .call 1 ⟨.alloc, 0, 0x1000, 16⟩, .run 1, .run 1, .run 1,
          .call 2 ⟨.alloc, 0, 0x2000, 16⟩, .run 2, .run 2, .run 2, .run 1, .run 1,
          .call 3 ⟨.free, 0x1000, 0, 0⟩, .run 3, .run 3, .run 3, .run 3] s ∧
      s.stored = some 2 ∧ s.active = [] ∧ s.reported = [(2, ⟨.free, 0x1000, 0, 0⟩)] ∧
      InitSafe s ∧ Delivers s := by
  rcases Run.of_exec (system.restrict StepOk) initState
    [.mallocInit, .call 1 ⟨.alloc, 0, 0x1000, 16⟩, .run 1, .run 1, .run 1,
      .call 2 ⟨.alloc, 0, 0x2000, 16⟩, .run 2, .run 2, .run 2, .run 1, .run 1,
      .call 3 ⟨.free, 0x1000, 0, 0⟩, .run 3, .run 3, .run 3, .run 3] (by decide) with
    ⟨s, hs, hrun⟩
  obtain rfl := Option.some.inj hs
  rcases logAlloc_protocol hrun.of_restrict with ⟨hsafe, hdelivers⟩
  exact ⟨_, hrun, by decide, by decide, by decide, hsafe, hdelivers hrun⟩

/-- The same with the exchange of the second thread after the store of the first: all calls have
returned, the flag is 2, and the event of the third thread is dropped. -/
theorem exchange_after_store :
    ∃ s, Run system initState
        [.mallocInit, .call 1 ⟨.alloc, 0, 0x1000, 16⟩, .run 1, .run 1, .run 1,
          .call 2 ⟨.alloc, 0, 0x2000, 16⟩, .run 2, .run 2, .run 1, .run 1, .run 2,
          .call 3 ⟨.free, 0x1000, 0, 0⟩, .run 3, .run 3, .run 3] s ∧
      s.stored = some 2 ∧ s.active = [] ∧ s.calls[2]? = some ⟨.free, 0x1000, 0, 0⟩ ∧
      s.shamblesInitedN = 2 ∧ s.reported = [] := by
  rcases Run.of_exec system initState
    [.mallocInit, .call 1 ⟨.alloc, 0, 0x1000, 16⟩, .run 1, .run 1, .run 1,
      .call 2 ⟨.alloc, 0, 0x2000, 16⟩, .run 2, .run 2, .run 1, .run 1, .run 2,
      .call 3 ⟨.free, 0x1000, 0, 0⟩, .run 3, .run 3, .run 3] (by decide) with
    ⟨s, hs, hrun⟩
  obtain rfl := Option.some.inj hs
  exact ⟨_, hrun, by decide, by decide, by decide, by decide, by decide⟩

/-! ## The condition is needed -/

/-- After the store no activation is initialising. -/
theorem InitOnce.not_initialising (h : InitOnce s) (hstored : s.stored.isSome) :
    ∀ f ∈ s.active, f.pc.initialising = false := by
  have hcount := h.count
  have hone := h.le_one
  have hlen : s.stored.toList.length = 1 := by
    rcases Option.isSome_iff_exists.1 hstored with ⟨k, hk⟩
    simp [hk]
  have hzero : s.active.countP initialising = 0 := by omega
  intro f hf
  simpa [initialising] using List.countP_eq_zero.1 hzero f hf

/-- The call `c` is about to disable the plugin, or it is disabled. -/
structure Disabled (c : Nat) (s : State) : Prop where
  reachable : Reachable s
  stored : s.stored.isSome
  pending : (∃ f ∈ s.active, f.call = c ∧ f.pc = .exchange) ∨ s.shamblesInitedN = 2

theorem Disabled.runTop {c : Nat} (h : Disabled c s) (htop : s.top t = some f)
    (hreach : Reachable (runTop s t f)) : Disabled c (runTop s t f) := by
  have hinit := h.reachable.once.not_initialising h.stored f (mem_of_top htop)
  have hst : f.pc ≠ .store := by
    intro hpc
    simp [hpc, Pc.initialising] at hinit
  by_cases hx : f.pc = .exchange
  · refine ⟨hreach, ?_, Or.inr ?_⟩
    · simpa [Jemalloc.runTop, effect, hx] using h.stored
    · simp [Jemalloc.runTop, effect, hx]
  · rcases shared_of_passive (s := s) t hx hst with ⟨hflag, _, hstored⟩
    refine ⟨hreach, by simpa [hstored] using h.stored, ?_⟩
    rcases h.pending with ⟨g, hg, hgc, hgx⟩ | htwo
    · rcases mem_resume_of_mem (r := (nextPc s f.pc).map f.goto) htop hg with rfl | hg
      · exact absurd hgx hx
      · exact Or.inl ⟨g, hg, hgc, hgx⟩
    · exact Or.inr (hflag.trans htwo)

theorem Disabled.step {c : Nat} {a : Action} (h : Disabled c s)
    (hstep : Jemalloc.step s a = some s') : Disabled c s' := by
  have hreach := h.reachable.step hstep
  revert hreach
  refine step_cases (P := fun s' => Reachable s' → Disabled c s') hstep ?_ ?_ ?_
  · exact fun hreach => ⟨hreach, h.stored, h.pending⟩
  · intro t event _ hreach
    refine ⟨hreach, h.stored, ?_⟩
    rcases h.pending with ⟨f, hf, hfc, hfx⟩ | htwo
    · exact Or.inl ⟨f, List.mem_cons_of_mem _ hf, hfc, hfx⟩
    · exact Or.inr htwo
  · exact fun t f _ htop hreach => h.runTop htop hreach

/-- A call that stands before its exchange when 0 has been stored disables the plugin for good. -/
theorem disabled_of_pending_exchange {as as' : List Action} {g : Activation}
    (h : Run system initState as s) (hstored : s.stored.isSome) (hg : g ∈ s.active)
    (hpc : g.pc = .exchange) (h' : Run system s as' s') (hdone : ∀ f ∈ s'.active, f.call ≠ g.call) :
    s'.shamblesInitedN = 2 := by
  have hdisabled : Disabled g.call s' :=
    Run.invariant_state ⟨Reachable.run h, hstored, Or.inl ⟨g, hg, rfl, hpc⟩⟩
      (fun _ _ _ hs _ hstep => hs.step hstep) h'
  rcases hdisabled.pending with ⟨f, hf, hfc, _⟩ | htwo
  · exact absurd hfc (hdone f hf)
  · exact htwo

end Jemalloc
end Shambles
