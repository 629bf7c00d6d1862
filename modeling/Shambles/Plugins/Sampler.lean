import Shambles.Kernel.Stops
import Shambles.Plugins.Front

/-!
# Sampler — the kernel and a plugin in one process

The sampler thread of a plugin reads samples from the kernel and hands their addresses to
`handleSample`, one at a time; the other threads allocate, release and access memory.  Here the
kernel of `Kernel.Sampling` and a plugin of `Front` run together.

The region map of a plugin tells addresses apart only inside one window of `2 ^ 39` bytes: it looks at
the lower 39 bits.  The kernel samples one entry of the top-level page table, which stands for just as
many bytes.  So no sample is mistaken for an address it is not, and the plugin goes through a run of
reports whose samples are accesses of the program.
-/

namespace Shambles
namespace Plugins
namespace Sampler

open Kernel
open Kernel.Poison (Arch kroomBaseVa4)
open Jemalloc (AllocEvent)

structure State (c : Setup) (σ : Type) where
  kernel : Sampling.State
  plugin : Front c σ
  /-- How many of the samples that were read have been handed to `handleSample`. -/
  handled : Nat

inductive Event
  /-- A step of the kernel, of a thread in it or of its processor. -/
  | kernel (e : Sampling.Event)
  /-- The allocator calls `allocCallback`. -/
  | callback (event : AllocEvent) (output chunksPtr : Nat)
  /-- The sampler thread calls `handleSample` with what it has read. -/
  | handleSample

section System

variable {σ : Type} (arch : Arch) (P : MigrationPolicy σ) {c : Setup}

/-- The state when the sampler thread has opened the samples file. -/
def init (c : Setup) (policy : σ) : State c σ :=
  ⟨Sampling.opened, Front.init c policy, 0⟩

def step (s : State c σ) : Event → Option (State c σ)
  | .kernel e => (Sampling.step arch s.kernel e).map fun kernel => { s with kernel := kernel }
  | .callback event output chunksPtr =>
      (s.plugin.step P (.callback event output chunksPtr)).map fun plugin =>
        { s with plugin := plugin }
  | .handleSample =>
      match s.kernel.handover.reads[s.handled]? with
      | some r =>
          (s.plugin.step P (.sample r.2.addr)).map fun plugin =>
            { s with plugin := plugin, handled := s.handled + 1 }
      | none => none

/-- The loop in `sampler_thread_func` reads 16 bytes, and only when it has nothing left to handle. -/
def ReadOk (s : State c σ) : Sampling.Event → Prop
  | .reader (.read size sameMm) =>
      size = 16 ∧ sameMm = true ∧ s.handled = s.kernel.handover.reads.length
  | _ => True

/-- Nothing is asked of the samples. -/
def Enabled (s : State c σ) : Event → Prop
  | .kernel e => Sampling.Enabled arch s.kernel e ∧ ReadOk s e
  | .callback event output chunksPtr => s.plugin.Enabled P (.callback event output chunksPtr)
  | .handleSample => True

instance (s : State c σ) : (e : Sampling.Event) → Decidable (ReadOk s e)
  | .reader (.read _ _) => inferInstanceAs (Decidable (_ ∧ _ ∧ _))
  | .reader (.report _) | .reader (.acquire _) | .reader .write | .reader .down
  | .reader .interrupt | .reader .lockRead | .reader .copy | .reader .fault
  | .spawn | .thread _ _ | .acquire _ | .write | .tick _ | .flush | .populate _ | .clear =>
      isTrue trivial

instance (s : State c σ) : (e : Event) → Decidable (Enabled arch P s e)
  | .kernel e => inferInstanceAs (Decidable (Sampling.Enabled arch s.kernel e ∧ ReadOk s e))
  | .callback event output chunksPtr =>
      inferInstanceAs (Decidable (s.plugin.Enabled P (.callback event output chunksPtr)))
  | .handleSample => isTrue trivial

def system (c : Setup) : System (State c σ) Event :=
  { enabled := Enabled arch P
    step := step arch P }

instance (s : State c σ) (e : Event) : Decidable ((system arch P c).enabled s e) :=
  inferInstanceAs (Decidable (Enabled arch P s e))

/-- The report to the plugin that an event is, if any. -/
def toReport (s : State c σ) : Event → List Report
  | .kernel _ => []
  | .callback event output chunksPtr => [.callback event output chunksPtr]
  | .handleSample => (s.kernel.handover.reads[s.handled]?).toList.map fun r => .sample r.2.addr

/-- What the plugin is told in the course of a run. -/
def reports (c : Setup) (policy : σ) (es : List Event) : List Report :=
  (system arch P c).collect toReport (init c policy) es

end System

/-! ## Reads -/

section Reads

variable {h h' : Handover.State}

/-- A step of the handover adds at most one read, and only from inside the mutex. -/
theorem reads_step {e : Handover.Event} (hstep : Handover.step h e = some h')
    (hread : ∀ size sameMm, e ≠ .read size sameMm) :
    h'.reads = h.reads ∧ (h'.reading ≠ .idle → h.reading ≠ .idle) ∨
      ∃ r stage, h.lock = some (.reader stage) ∧ h'.reads = h.reads ++ [r] ∧ h'.reading = .idle := by
  cases e with
  | report sample =>
      obtain rfl := Option.some.inj hstep
      exact Or.inl ⟨rfl, id⟩
  | acquire i =>
      simp only [Handover.step] at hstep
      split at hstep
      · obtain rfl := Option.some.inj hstep
        exact Or.inl ⟨rfl, id⟩
      · cases hstep
  | write =>
      simp only [Handover.step] at hstep
      split at hstep
      · rename_i stage sample hlock
        obtain rfl := Option.some.inj hstep
        cases stage <;> exact Or.inl ⟨rfl, id⟩
      · cases hstep
  | read size sameMm => exact absurd rfl (hread size sameMm)
  | down =>
      simp only [Handover.step] at hstep
      split at hstep
      · rename_i hdown
        obtain rfl := Option.some.inj hstep
        exact Or.inl ⟨rfl, fun _ => by simp [hdown.1]⟩
      · cases hstep
  | interrupt =>
      simp only [Handover.step] at hstep
      split at hstep
      · obtain rfl := Option.some.inj hstep
        exact Or.inl ⟨rfl, fun hne => absurd rfl hne⟩
      · cases hstep
  | lockRead =>
      simp only [Handover.step] at hstep
      split at hstep
      · split at hstep
        · obtain rfl := Option.some.inj hstep
          exact Or.inl ⟨rfl, id⟩
        · cases hstep
      · cases hstep
  | copy =>
      simp only [Handover.step] at hstep
      split at hstep
      · rename_i stage hlock
        obtain rfl := Option.some.inj hstep
        cases stage with
        | copied reports sample => exact Or.inr ⟨(reports, sample), _, hlock, rfl, rfl⟩
        | faulted => exact Or.inl ⟨rfl, fun hne => absurd rfl hne⟩
        | locked => exact Or.inl ⟨rfl, id⟩
        | tried => exact Or.inl ⟨rfl, id⟩
        | copiedAddr reports addr => exact Or.inl ⟨rfl, id⟩
      · cases hstep
  | fault =>
      simp only [Handover.step] at hstep
      split at hstep
      · obtain rfl := Option.some.inj hstep
        exact Or.inl ⟨rfl, id⟩
      · obtain rfl := Option.some.inj hstep
        exact Or.inl ⟨rfl, id⟩
      · cases hstep

end Reads

/-! ## The sampler keeps up -/

/-- The kernel is in a state it can reach, and the sampler has at most one sample in hand. -/
structure Ok {c : Setup} {σ : Type} (arch : Arch) (s : State c σ) : Prop where
  kernel : Sampling.Invariant arch s.kernel ∧ Sampling.Queued s.kernel
  handled_le : s.handled ≤ s.kernel.handover.reads.length
  le_handled : s.kernel.handover.reads.length ≤ s.handled + 1
  /-- During a read nothing is left to handle. -/
  reading : s.kernel.handover.reading ≠ .idle → s.handled = s.kernel.handover.reads.length

namespace Ok

variable {σ : Type} {arch : Arch} {P : MigrationPolicy σ} {c : Setup} {s s' : State c σ}

theorem init (arch : Arch) (c : Setup) (policy : σ) : Ok arch (init c policy) :=
  ⟨⟨Sampling.Invariant.init arch, Sampling.Queued.init⟩, le_rfl, Nat.zero_le _, fun _ => rfl⟩

/-- A step of the kernel adds a read only while the sampler waits for it. -/
theorem reads (h : Ok arch s) {e : Sampling.Event} {kernel : Sampling.State} (hok : ReadOk s e)
    (hstep : Sampling.step arch s.kernel e = some kernel) :
    (∃ new, kernel.handover.reads = s.kernel.handover.reads ++ new) ∧
      kernel.handover.reads.length ≤ s.handled + 1 ∧
      (kernel.handover.reading ≠ .idle → s.handled = kernel.handover.reads.length) := by
  rcases Sampling.step_handover hstep with hsame | ⟨d, hd, hread⟩
  · rw [hsame]
    exact ⟨⟨[], by simp⟩, h.le_handled, h.reading⟩
  · by_cases hd' : ∃ size sameMm, d = .read size sameMm
    · rcases hd' with ⟨size, sameMm, rfl⟩
      obtain rfl : e = .reader (.read size sameMm) :=
        hread.resolve_left fun hne => hne size sameMm rfl
      have hreads : kernel.handover.reads = s.kernel.handover.reads := by
        simp only [Handover.step] at hd
        split at hd
        · rw [← Option.some.inj hd]
          split <;> rfl
        · cases hd
      rw [hreads]
      exact ⟨⟨[], by simp⟩, h.le_handled, fun _ => hok.2.2⟩
    · rcases reads_step hd fun size sameMm heq => hd' ⟨size, sameMm, heq⟩ with
        ⟨hreads, hidle⟩ | ⟨r, stage, hlock, hreads, hidle⟩
      · rw [hreads]
        exact ⟨⟨[], by simp⟩, h.le_handled, fun hne => h.reading (hidle hne)⟩
      · -- inside the mutex the reader has come past its `down`
        rcases h.kernel.1.handover with ⟨es, hrun⟩
        have hdowned := (Handover.Invariant.run hrun).permits.inside stage hlock
        have hall := h.reading (by simp [hdowned])
        rw [hreads]
        exact ⟨⟨[r], rfl⟩, by simp [hall], fun hne => absurd hidle hne⟩

/-- The sample in hand lies in the window the region map tells apart. -/
theorem inWindow (h : Ok arch s) (hwindow : c.window = kroomBaseVa4 arch / 2 ^ 39)
    {r : Nat × Handover.Sample} (hr : r ∈ s.kernel.handover.reads) : c.InWindow r.2.addr := by
  rcases h.kernel.1.reads hr with ⟨hbase, huser, _⟩
  rw [Setup.InWindow, hwindow]
  cases arch with
  | x86 =>
      simp only [kroomBaseVa4] at hbase huser ⊢
      omega
  | arm64 =>
      simp only [kroomBaseVa4] at hbase huser ⊢
      omega

/-- Every step is a report that the plugin may be given, or none of its business. -/
theorem step (h : Ok arch s) (hwindow : c.window = kroomBaseVa4 arch / 2 ^ 39) {e : Event}
    (hen : Enabled arch P s e) (hs' : Sampler.step arch P s e = some s') :
    Ok arch s' ∧ (toReport s e = [] ∧ s'.plugin = s.plugin ∨
      ∃ r, toReport s e = [r] ∧ s.plugin.Enabled P r ∧ s.plugin.step P r = some s'.plugin) := by
  cases e with
  | kernel e =>
      rcases Option.map_eq_some_iff.1 hs' with ⟨kernel, hstep, rfl⟩
      rcases h.reads hen.2 hstep with ⟨⟨new, hnew⟩, hle, hreading⟩
      refine ⟨⟨⟨h.kernel.1.step h.kernel.2 hen.1 hstep, h.kernel.2.step hstep⟩, ?_, hle, hreading⟩,
        Or.inl ⟨rfl, rfl⟩⟩
      show s.handled ≤ kernel.handover.reads.length
      have hold := h.handled_le
      rw [hnew, List.length_append]
      omega
  | callback event output chunksPtr =>
      rcases Option.map_eq_some_iff.1 hs' with ⟨plugin, hstep, rfl⟩
      exact ⟨⟨h.kernel, h.handled_le, h.le_handled, h.reading⟩, Or.inr ⟨_, rfl, hen, hstep⟩⟩
  | handleSample =>
      simp only [Sampler.step] at hs'
      split at hs'
      · rename_i r hr
        rcases Option.map_eq_some_iff.1 hs' with ⟨plugin, hstep, rfl⟩
        have hlt : s.handled < s.kernel.handover.reads.length :=
          (List.getElem?_eq_some_iff.1 hr).1
        have hle := h.le_handled
        refine ⟨⟨h.kernel, hlt, Nat.le_succ_of_le hle, ?_⟩,
          Or.inr ⟨.sample r.2.addr, by simp [toReport, hr],
            h.inWindow hwindow (List.mem_of_getElem? hr), hstep⟩⟩
        intro hne
        have hall := h.reading hne
        omega
      · cases hs'

end Ok

/-! ## Runs -/

section Runs

variable {σ : Type} {arch : Arch} {P : MigrationPolicy σ} {c : Setup} {policy : σ}
  {es : List Event} {s : State c σ}

/-- The plugin goes through a run of reports. -/
theorem run_plugin (hwindow : c.window = kroomBaseVa4 arch / 2 ^ 39)
    (h : Run (system arch P c) (init c policy) es s) :
    Ok arch s ∧ Run (Front.system P c) (Front.init c policy) (reports arch P c policy es) s.plugin :=
  h.simulates State.plugin (Ok.init arch c policy)
    fun _ _ _ hok hen hst => hok.step hwindow hen hst

/-- The address of a sample. -/
def sampledAddr : Report → Option Nat
  | .sample addr => some addr
  | .callback _ _ _ => none

/-- The samples among the reports are what was read, as far as it has been handled. -/
theorem sampledAddr_reports (hwindow : c.window = kroomBaseVa4 arch / 2 ^ 39)
    (h : Run (system arch P c) (init c policy) es s) :
    (reports arch P c policy es).filterMap sampledAddr =
      (s.kernel.handover.reads.take s.handled).map fun r => r.2.addr := by
  induction h with
  | nil => rfl
  | @snoc es s s' e hrun hen hst ih =>
      have hok := (run_plugin hwindow hrun).1
      rw [reports] at ih
      rw [reports, hrun.collect_snoc, List.filterMap_append, ih]
      cases e with
      | kernel e =>
          rcases Option.map_eq_some_iff.1 hst with ⟨kernel, hstep, rfl⟩
          rcases (hok.reads hen.2 hstep).1 with ⟨new, hnew⟩
          have hle := hok.handled_le
          simp [toReport, hnew, List.take_append_of_le_length hle]
      | callback event output chunksPtr =>
          rcases Option.map_eq_some_iff.1 hst with ⟨plugin, _, rfl⟩
          simp [toReport, sampledAddr]
      | handleSample =>
          have hst' : step arch P s .handleSample = some s' := hst
          simp only [step] at hst'
          split at hst'
          · rename_i r hr
            rcases Option.map_eq_some_iff.1 hst' with ⟨plugin, _, rfl⟩
            simp [toReport, hr, sampledAddr, List.take_add_one]
          · cases hst'

end Runs

end Sampler
end Plugins
end Shambles
