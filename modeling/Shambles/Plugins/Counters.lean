import Shambles.Jemalloc.LogAlloc
import Shambles.Plugins.Migration

/-!
# Counters — the logging hooks of the `-counters` builds

`counters.c` implements the three hooks with one atomic addition or two.  All additions are of 1,
also the one to `migrationBytes`.

A plugin's own hook calls are in its trace (`hooks`).  The callbacks call `LOG_ALLOC` besides, for
small allocations too; these calls may stand anywhere between the others and touch counters of their
own, so that the other counters depend on the trace alone (`countP_of_interleaved`).
-/

namespace Shambles
namespace Plugins

open Structures
open Jemalloc (AllocEventType)

/-- A call of `logSample`, `logAlloc` or `logMigration`, as far as the counters look at it. -/
inductive HookCall
  | sample (flags : SampleFlags)
  | alloc (type : AllocEventType)
  | migration (dir : Direction) (size : Nat)
  deriving DecidableEq, Repr

structure ShamblesCounters where
  allocs : Nat
  frees : Nat
  reallocs : Nat
  hits : Nat
  misses : Nat
  migrations : Direction → Nat
  migrationBytes : Direction → Nat
  small : Nat

/-- `__atomic_fetch_add` of 1 to a `uint64_t`. -/
def fetchAdd (n : Nat) : Nat :=
  wrap64 (n + 1)

namespace ShamblesCounters

/-- The file is new: it holds zeros. -/
def loggerInit : ShamblesCounters :=
  { allocs := 0
    frees := 0
    reallocs := 0
    hits := 0
    misses := 0
    migrations := fun _ => 0
    migrationBytes := fun _ => 0
    small := 0 }

def logSample (c : ShamblesCounters) (flags : SampleFlags) : ShamblesCounters :=
  if flags.tracked then
    if flags.hit then
      { c with hits := fetchAdd c.hits }
    else
      { c with misses := fetchAdd c.misses }
  else
    { c with small := fetchAdd c.small }

def logAlloc (c : ShamblesCounters) : AllocEventType → ShamblesCounters
  | .alloc => { c with allocs := fetchAdd c.allocs }
  | .free => { c with frees := fetchAdd c.frees }
  | .realloc => { c with reallocs := fetchAdd c.reallocs }

/-- `size` is not used: `migrationBytes` is increased by 1. -/
def logMigration (c : ShamblesCounters) (dir : Direction) (_size : Nat) : ShamblesCounters :=
  { c with
    migrations := Function.update c.migrations dir (fetchAdd (c.migrations dir))
    migrationBytes := Function.update c.migrationBytes dir (fetchAdd (c.migrationBytes dir)) }

def call (c : ShamblesCounters) : HookCall → ShamblesCounters
  | .sample flags => c.logSample flags
  | .alloc type => c.logAlloc type
  | .migration dir size => c.logMigration dir size

/-- The counters after a sequence of hook calls. -/
def after (calls : List HookCall) : ShamblesCounters :=
  calls.foldl call loggerInit

end ShamblesCounters

/-! ## What the counters count -/

namespace HookCall

def isHit : HookCall → Bool
  | .sample flags => flags.tracked && flags.hit
  | _ => false

def isMiss : HookCall → Bool
  | .sample flags => flags.tracked && !flags.hit
  | _ => false

def isSmall : HookCall → Bool
  | .sample flags => !flags.tracked
  | _ => false

def isAlloc : HookCall → Bool
  | .alloc _ => true
  | _ => false

def migrates (dir : Direction) : HookCall → Bool
  | .migration d _ => d = dir
  | _ => false

end HookCall

open HookCall

@[simp] theorem fetchAdd_wrap64 (n : Nat) : fetchAdd (wrap64 n) = wrap64 (n + 1) := by
  simp [fetchAdd, wrap64, Nat.add_mod]

/-- Every counter counts the calls of its kind modulo 2^64, and `migrationBytes` the same ones as
`migrations`. -/
theorem after_eq (calls : List HookCall) :
    let c := ShamblesCounters.after calls
    c.hits = wrap64 (calls.countP isHit) ∧ c.misses = wrap64 (calls.countP isMiss) ∧
      c.small = wrap64 (calls.countP isSmall) ∧
      (∀ dir, c.migrations dir = wrap64 (calls.countP (migrates dir))) ∧
      ∀ dir, c.migrationBytes dir = wrap64 (calls.countP (migrates dir)) := by
  induction calls using List.reverseRecOn with
  | nil => simp [ShamblesCounters.after, ShamblesCounters.loggerInit, wrap64]
  | append_singleton calls call ih =>
      rcases ih with ⟨hhits, hmisses, hsmall, hmigrations, hbytes⟩
      have hlast : ShamblesCounters.after (calls ++ [call]) =
          (ShamblesCounters.after calls).call call := by
        simp [ShamblesCounters.after]
      simp only [hlast, List.countP_append]
      cases call with
      | sample flags =>
          rcases flags with ⟨tracked, hit⟩
          -- one of the three counters is increased
          cases tracked <;> cases hit <;>
            simp [ShamblesCounters.call, ShamblesCounters.logSample, hhits, hmisses, hsmall,
              hmigrations, hbytes, isHit, isMiss, isSmall, migrates]
      | alloc type =>
          cases type <;>
            simp [ShamblesCounters.call, ShamblesCounters.logAlloc, hhits, hmisses, hsmall,
              hmigrations, hbytes, isHit, isMiss, isSmall, migrates]
      | migration dir size =>
          refine ⟨hhits, hmisses, hsmall, ?_, ?_⟩
          all_goals
            intro d
            by_cases hd : d = dir
            · simp [ShamblesCounters.call, ShamblesCounters.logMigration, hmigrations, hbytes,
                migrates, hd]
            · simp [ShamblesCounters.call, ShamblesCounters.logMigration, hmigrations, hbytes,
                migrates, hd, Ne.symm hd]

/-- No counter that the plugin feeds has come to 2^64. -/
structure NoWrap (calls : List HookCall) : Prop where
  hits : calls.countP isHit < 2 ^ 64
  misses : calls.countP isMiss < 2 ^ 64
  small : calls.countP isSmall < 2 ^ 64
  migrations : ∀ dir, calls.countP (migrates dir) < 2 ^ 64

/-! ## The hook calls of a trace -/

def hookCall : Effect → Option HookCall
  | .mbind _ _ _ => none
  | .logMigration dir _ size => some (.migration dir size)
  | .logSample _ flags => some (.sample flags)

def hooks (trace : List Effect) : List HookCall :=
  trace.filterMap hookCall

@[simp] theorem hooks_nil : hooks [] = [] := rfl

@[simp] theorem hooks_append (trace es : List Effect) :
    hooks (trace ++ es) = hooks trace ++ hooks es := by
  simp [hooks]

@[simp] theorem hooks_bindFast (c : ShamblesChunk) :
    hooks (bindFast c) = [.migration .slow2fast c.size] := rfl

@[simp] theorem hooks_bindFastAlloc (c : ShamblesChunk) :
    hooks (bindFastAlloc c) = [.migration .initFast c.size] := rfl

@[simp] theorem hooks_bindSlowAlloc (c : ShamblesChunk) :
    hooks (bindSlowAlloc c) = [.migration .initSlow c.size] := rfl

@[simp] theorem hooks_logSample (addr : Nat) (flags : SampleFlags) :
    hooks [.logSample addr flags] = [.sample flags] := rfl

@[simp] theorem hooks_swap (fastChunk slowChunk : ShamblesChunk) :
    hooks (swap fastChunk slowChunk) =
      [.migration .slow2fast fastChunk.size, .migration .fast2slow slowChunk.size] := rfl

@[simp] theorem hooks_unbind (region : ShamblesRegion) : hooks (unbind region) = [] := by
  unfold unbind
  split <;> rfl

/-- The hook calls of a process: those of the trace, with calls of `LOG_ALLOC` anywhere. -/
def Interleaved (trace : List Effect) (calls : List HookCall) : Prop :=
  calls.filter (fun call => !call.isAlloc) = hooks trace

theorem countP_of_interleaved {trace : List Effect} {calls : List HookCall}
    (h : Interleaved trace calls) {p : HookCall → Bool} (hp : ∀ type, p (.alloc type) = false) :
    calls.countP p = (hooks trace).countP p := by
  rw [← h, List.countP_filter]
  refine List.countP_congr ?_
  intro call _
  cases call with
  | alloc type => simp [hp]
  | sample flags => simp [isAlloc]
  | migration dir size => simp [isAlloc]

/-! ## Logged sizes -/

/-- The sizes of the chunks whose migration in direction `dir` was logged. -/
def loggedSizes (dir : Direction) (calls : List HookCall) : List Nat :=
  calls.filterMap fun
    | .migration d size => if d = dir then some size else none
    | _ => none

theorem loggedSizes_of_interleaved {trace : List Effect} {calls : List HookCall}
    (h : Interleaved trace calls) (dir : Direction) :
    loggedSizes dir calls = loggedSizes dir (hooks trace) := by
  rw [← h, loggedSizes, loggedSizes, List.filterMap_filter]
  refine List.filterMap_congr ?_
  intro call _
  cases call with
  | alloc type => rfl
  | sample flags => rfl
  | migration d size => rfl

@[simp] theorem loggedSizes_append (dir : Direction) (calls calls' : List HookCall) :
    loggedSizes dir (calls ++ calls') = loggedSizes dir calls ++ loggedSizes dir calls' := by
  simp [loggedSizes]

theorem length_loggedSizes (dir : Direction) (calls : List HookCall) :
    (loggedSizes dir calls).length = calls.countP (migrates dir) := by
  induction calls with
  | nil => rfl
  | cons call calls ih =>
      cases call with
      | migration d size =>
          by_cases hd : d = dir
          · simpa [loggedSizes, migrates, hd] using ih
          · simpa [loggedSizes, migrates, hd] using ih
      | sample flags => simpa [loggedSizes, migrates] using ih
      | alloc type => simpa [loggedSizes, migrates] using ih

/-- Among positive numbers only ones add up to their number. -/
theorem sum_eq_length_iff {sizes : List Nat} (hpos : ∀ n ∈ sizes, 0 < n) :
    sizes.length = sizes.sum ↔ ∀ n ∈ sizes, n = 1 := by
  induction sizes with
  | nil => simp
  | cons n sizes ih =>
      rcases List.forall_mem_cons.1 hpos with ⟨hn, hrest⟩
      have hle : sizes.length ≤ sizes.sum := List.length_le_sum_of_one_le sizes hrest
      rw [List.forall_mem_cons, ← ih hrest]
      simp only [List.length_cons, List.sum_cons]
      omega

end Plugins
end Shambles
