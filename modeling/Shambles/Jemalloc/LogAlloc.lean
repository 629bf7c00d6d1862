import Shambles.Lib.CallStacks
import Shambles.Lib.Runs

/-!
# LogAlloc — how jemalloc initialises the plugin and reports to it

Every exported allocation function ends in a call of `logAlloc`.  The first such call loads the
plugin, later ones report their event to it, and the calls in between are dropped:

* `shambles_inited_n` is 1 before the initialisation, 2 while it runs and 0 afterwards;
* each atomic access to it is one step, and the steps of all threads interleave;
* `shambles_init` and `reportAllocFunc` may allocate, so either can call `logAlloc` again.
-/

namespace Shambles
namespace Jemalloc

open CallStacks

/-- `AllocEventType` of `shambles.h`; `ALLOC_EVENT_SIZE` only counts the types. -/
inductive AllocEventType where
  | alloc
  | realloc
  | free
  deriving DecidableEq, Repr

/-- The arguments of `logAlloc` and of `reportAllocFunc`. -/
structure AllocEvent where
  type : AllocEventType
  inPtr : Nat
  outPtr : Nat
  size : Nat
  deriving DecidableEq, Repr

/-- An allocation that a plugin with this threshold looks after. -/
def AllocEvent.Large (sizeThresshold : Nat) (event : AllocEvent) : Prop :=
  event.type = .alloc ∧ sizeThresshold ≤ event.size

instance (sizeThresshold : Nat) (event : AllocEvent) : Decidable (event.Large sizeThresshold) :=
  inferInstanceAs (Decidable (_ ∧ _))

/-- How many of the events are large allocations. -/
def largeCount (sizeThresshold : Nat) (events : List AllocEvent) : Nat :=
  events.countP fun event => event.Large sizeThresshold

theorem largeCount_snoc (sizeThresshold : Nat) (events : List AllocEvent) (event : AllocEvent) :
    largeCount sizeThresshold (events ++ [event]) =
      largeCount sizeThresshold events + if event.Large sizeThresshold then 1 else 0 := by
  by_cases hlarge : event.Large sizeThresshold
  · simp [largeCount, hlarge]
  · simp [largeCount, hlarge]

/-- Where an activation of `logAlloc` stands. -/
inductive Pc where
  /-- Before `malloc_init_state != malloc_init_initialized`. -/
  | test
  | load
  | exchange
  /-- Inside `shambles_init()`. -/
  | init
  | store
  /-- Before the call of `reportAllocFunc`. -/
  | report
  /-- Inside `reportAllocFunc`. -/
  | reporting
  deriving DecidableEq, Repr

structure Activation where
  thread : Nat
  /-- The number of the call among all calls of `logAlloc`. -/
  call : Nat
  event : AllocEvent
  pc : Pc
  deriving DecidableEq, Repr

structure State where
  shamblesInitedN : Nat
  /-- `malloc_init_state == malloc_init_initialized`. -/
  mallocInitialized : Bool
  active : List Activation
  /-- All calls of `logAlloc` so far. -/
  calls : List AllocEvent
  /-- How often `shambles_init` has been entered. -/
  inits : Nat
  initReturned : Bool
  /-- The calls of `reportAllocFunc` so far, each with the number of the call it comes from. -/
  reported : List (Nat × AllocEvent)
  /-- The number of calls that began before the store of 0. -/
  stored : Option Nat
  deriving DecidableEq

namespace State

def top (s : State) (t : Nat) : Option Activation :=
  CallStacks.top Activation.thread t s.active

end State

def initState : State where
  shamblesInitedN := 1
  mallocInitialized := false
  active := []
  calls := []
  inits := 0
  initReturned := false
  reported := []
  stored := none

/-! ## The steps of `logAlloc` -/

/-- Where an activation goes on; `none` when `logAlloc` returns. -/
def nextPc (s : State) : Pc → Option Pc
  | .test => some (if s.mallocInitialized then .load else .exchange)
  | .load => some (if s.shamblesInitedN = 0 then .report else .exchange)
  -- Whoever finds the 1 initialises; everyone else returns without a report.
  | .exchange => if s.shamblesInitedN = 1 then some .init else none
  | .init => some .store
  -- The initialising call returns here: its own event is not reported.
  | .store => none
  | .report => some .reporting
  | .reporting => none

/-- What a step of the activation `f` does to the shared state. -/
def effect (s : State) (f : Activation) : State :=
  match f.pc with
  | .test | .load | .reporting => s
  | .exchange =>
      { s with
        shamblesInitedN := 2
        inits := if s.shamblesInitedN = 1 then s.inits + 1 else s.inits }
  | .init => { s with initReturned := true }
  | .store => { s with shamblesInitedN := 0, stored := some s.calls.length }
  | .report => { s with reported := s.reported ++ [(f.call, f.event)] }

def Activation.goto (f : Activation) (pc : Pc) : Activation :=
  { f with pc := pc }

/-- One step of the newest activation `f` of thread `t`. -/
def runTop (s : State) (t : Nat) (f : Activation) : State :=
  { effect s f with
    active := resume Activation.thread t ((nextPc s f.pc).map f.goto) s.active }

/-- Thread `t` calls `logAlloc`. -/
def beginCall (s : State) (t : Nat) (event : AllocEvent) : State :=
  { s with
    active := ⟨t, s.calls.length, event, .test⟩ :: s.active
    calls := s.calls ++ [event] }

inductive Action where
  /-- `malloc_init_state` becomes `malloc_init_initialized`. -/
  | mallocInit
  | call (thread : Nat) (event : AllocEvent)
  | run (thread : Nat)
  deriving DecidableEq, Repr

/-- A thread calls `logAlloc` from outside of it, or again from `shambles_init` or
`reportAllocFunc`. -/
def Enabled (s : State) : Action → Prop
  | .mallocInit => True
  | .call t _ => ∀ f ∈ s.top t, f.pc = .init ∨ f.pc = .reporting
  | .run t => (s.top t).isSome

instance (s : State) : (a : Action) → Decidable (Enabled s a)
  | .mallocInit => isTrue trivial
  | .call t _ => inferInstanceAs (Decidable (∀ f ∈ s.top t, f.pc = .init ∨ f.pc = .reporting))
  | .run t => inferInstanceAs (Decidable ((s.top t).isSome = true))

def step (s : State) : Action → Option State
  | .mallocInit => some { s with mallocInitialized := true }
  | .call t event => some (beginCall s t event)
  | .run t => (s.top t).map (runTop s t)

def system : System State Action where
  enabled := Enabled
  step := step

instance (s : State) (a : Action) : Decidable (system.enabled s a) :=
  inferInstanceAs (Decidable (Enabled s a))

/-- The three kinds of steps. -/
theorem step_cases {P : State → Prop} {s s' : State} {a : Action} (h : step s a = some s')
    (hinit : P { s with mallocInitialized := true })
    (hcall : ∀ t event, a = .call t event → P (beginCall s t event))
    (hrun : ∀ t f, a = .run t → s.top t = some f → P (runTop s t f)) : P s' := by
  cases a with
  | mallocInit =>
      obtain rfl := Option.some.inj h
      exact hinit
  | call t event =>
      obtain rfl := Option.some.inj h
      exact hcall t event rfl
  | run t =>
      rcases Option.map_eq_some_iff.1 h with ⟨f, hf, rfl⟩
      exact hrun t f rfl hf

end Jemalloc
end Shambles
