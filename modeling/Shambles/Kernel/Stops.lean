import Shambles.Kernel.Sampling

/-!
# Stops — what sampling sees and what it costs

The stops of the threads are compared with the poisonings by number, over the whole run.  A thread
that has shown the entry finds it hidden only after another poisoning, so it has been stopped at most
as often as the timer has hidden the entry.  The timer leaves a hidden entry alone, so between two
poisonings either a handler shows the entry, and the thread in it is stopped, or the entry is torn
down: all threads together have been stopped at least as often as the timer has hidden the entry, but
for the times it was torn down, the poisoning that is not over and the stops not yet reported.

The numbers do not say which poisoning has stopped which thread.  Many threads may have found the
entry hidden before the first of them shows it, and a late one among them may show the entry after
the timer has hidden it again: that poisoning is then over and no thread has found it.

`Samples` collects what follows for the reader and for the threads.
-/

namespace Shambles
namespace Kernel
namespace Sampling

open Handover (Sample)
open Poison (Arch kroomBaseVa4)

/-! ## Sums over the threads -/

/-- The sum of a quantity over all threads. -/
def total (w : Thread → Nat) (threads : List Thread) : Nat :=
  (threads.map w).sum

/-- What a thread changes when it moves. -/
theorem total_set (w : Thread → Nat) {th : Thread} (th' : Thread) :
    ∀ {threads : List Thread} {t : Nat}, threads[t]? = some th →
      total w (threads.set t th') + w th = total w threads + w th' := by
  intro threads
  induction threads with
  | nil =>
      intro t h
      simp at h
  | cons x threads ih =>
      intro t h
      cases t with
      | zero =>
          obtain rfl : x = th := by simpa using h
          simp only [total, List.set_cons_zero, List.map_cons, List.sum_cons]
          omega
      | succ t =>
          have hnext := ih (t := t) (by simpa using h)
          simp only [total, List.set_cons_succ, List.map_cons, List.sum_cons] at hnext ⊢
          omega


/-! ## The invariant -/

namespace Thread

/-- How often this thread has found the entry hidden. -/
def due (th : Thread) : Nat :=
  th.stops + if th.pc = .sawPoisoned ∨ th.pc = .unpoisoned then 1 else 0

/-- The reports of this thread, and the one it is about to make. -/
def weight (th : Thread) : Nat :=
  th.stops + if th.pc = .unpoisoned then 1 else 0

/-- The thread is on its way through the handler and has found the entry hidden. -/
def Stopped (th : Thread) : Prop :=
  th.pc = .sawPoisoned ∨ th.pc = .unpoisoned ∨ th.pc = .reporting

structure Ok (arch : Arch) (page : Poison.State) (polls : Nat) (th : Thread) : Prop where
  order : th.issued = th.carried ++ th.current
  user : ∀ x ∈ th.issued, x.addr < kroomBaseVa4 arch + 2 ^ 39
  sampled : th.Stopped → Sampled arch th.sample.addr
  backed : th.pc = .sawPoisoned → page.intended ≠ 0#64
  due_le : th.due ≤ polls
  /-- While the entry is hidden, a thread that is not about to show it is one poisoning behind. -/
  due_lt : Hidden arch page → th.pc ≠ .sawPoisoned → th.due < polls

namespace Ok

variable {arch : Arch} {page page' : Poison.State} {polls polls' : Nat} {th : Thread}

theorem mono (h : th.Ok arch page polls) (hle : polls ≤ polls')
    (hbacked : th.pc = .sawPoisoned → page'.intended ≠ 0#64)
    (hhidden : Hidden arch page' → Hidden arch page ∨ polls < polls') :
    th.Ok arch page' polls' := by
  refine ⟨h.order, h.user, h.sampled, hbacked, h.due_le.trans hle, ?_⟩
  intro hpage hpc
  rcases hhidden hpage with hold | hlt
  · exact (h.due_lt hold hpc).trans_le hle
  · exact h.due_le.trans_lt hlt

theorem forget (h : th.Ok arch page polls) : th.forget.Ok arch page polls :=
  ⟨h.order, h.user, h.sampled, h.backed, h.due_le, h.due_lt⟩

/-- A thread that is not stopped goes from one place to another. -/
theorem move {th' : Thread} (h : th.Ok arch page polls) (hpc : th.pc ≠ .sawPoisoned ∧ th.pc ≠ .unpoisoned)
    (hpc' : ¬ th'.Stopped) (hstops : th'.stops = th.stops)
    (horder : th'.issued = th'.carried ++ th'.current)
    (huser : ∀ x ∈ th'.issued, x.addr < kroomBaseVa4 arch + 2 ^ 39) : th'.Ok arch page polls := by
  have hdue : th.due = th.stops := by simp [due, hpc]
  have hnot : th'.pc ≠ .sawPoisoned ∧ th'.pc ≠ .unpoisoned := by
    simp only [Stopped, not_or] at hpc'
    exact ⟨hpc'.1, hpc'.2.1⟩
  have hdue' : th'.due = th'.stops := by simp [due, hnot]
  refine ⟨horder, huser, fun hstopped => absurd hstopped hpc', fun hsaw => absurd hsaw hnot.1,
    ?_, ?_⟩
  · rw [hdue', hstops, ← hdue]
    exact h.due_le
  · intro hhidden _
    rw [hdue', hstops, ← hdue]
    exact h.due_lt hhidden hpc.1

end Ok

end Thread

structure Invariant (arch : Arch) (s : State) : Prop where
  page : Poison.Invariant arch s.page
  active : s.page.active = true
  threads : ∀ th ∈ s.threads, th.Ok arch s.page s.polls
  /-- Once the timer is through, no processor has a translation for the hidden entry. -/
  dropped : Hidden arch s.page → s.flushing = false → ∀ th ∈ s.threads, th.cached = false
  polled : Hidden arch s.page → 0 < s.polls
  /-- Between two poisonings the entry has been shown or torn down. -/
  polls_le : s.polls ≤ s.unpoisons + s.clears + if Hidden arch s.page then 1 else 0
  unpoisons : s.unpoisons = total Thread.weight s.threads
  stops : (reported s.handover).length = total Thread.stops s.threads
  origin : ∀ x ∈ reported s.handover, Sampled arch x.addr ∧ ∃ th ∈ s.threads, x ∈ th.issued
  handover : ∃ es, Run Handover.system Handover.activated es s.handover

namespace Invariant

variable {arch : Arch} {s s' : State} {t : Nat} {th th' : Thread}

theorem init (arch : Arch) : Invariant arch opened := by
  have hpage : Poison.Invariant arch { Poison.initial with active := true } :=
    ⟨Or.inl rfl, Or.inl rfl, fun _ => rfl⟩
  refine ⟨hpage, rfl, ?_, ?_, fun hhidden => absurd hhidden (not_hidden_of_zero rfl), Nat.zero_le _,
    rfl, rfl, ?_, [], .nil⟩
  · intro th hth
    cases hth
  · intro _ _ th hth
    cases hth
  · intro x hx
    cases hx

/-- Threads are only replaced by threads that have issued no less. -/
theorem origin_setThread (h : Invariant arch s) (hth : s.threads[t]? = some th) (th' : Thread)
    (hissued : th.issued ⊆ th'.issued) :
    ∀ x ∈ reported s.handover,
      Sampled arch x.addr ∧ ∃ th ∈ s.threads.set t th', x ∈ th.issued := by
  intro x hx
  rcases h.origin x hx with ⟨hsampled, old, hold, hmem⟩
  refine ⟨hsampled, ?_⟩
  rcases List.getElem_of_mem hold with ⟨k, hk, rfl⟩
  by_cases hkt : k = t
  · subst hkt
    obtain rfl : s.threads[k] = th := by simpa [List.getElem?_eq_getElem hk] using hth
    refine ⟨th', ?_, hissued hmem⟩
    exact List.mem_set hk th'
  · refine ⟨s.threads[k], ?_, hmem⟩
    have hk' : k < (s.threads.set t th').length := by simpa using hk
    have heq : (s.threads.set t th')[k] = s.threads[k] := by simp [Ne.symm hkt]
    rw [← heq]
    exact List.getElem_mem hk'

theorem threads_setThread {P : Thread → Prop} (h : ∀ th ∈ s.threads, P th) (hnew : P th') :
    ∀ th ∈ (s.setThread t th').threads, P th := by
  intro x hx
  rcases List.mem_or_eq_of_mem_set hx with hold | rfl
  · exact h x hold
  · exact hnew

/-- A thread moves and nothing else does. -/
theorem setThread (h : Invariant arch s) (hth : s.threads[t]? = some th)
    (hok : th'.Ok arch s.page s.polls)
    (hcached : th'.cached = true → th.cached = true ∨ ¬ Hidden arch s.page)
    (hweight : th'.weight = th.weight) (hstops : th'.stops = th.stops)
    (hissued : th.issued ⊆ th'.issued) : Invariant arch (s.setThread t th') := by
  have hmem : th ∈ s.threads := List.mem_of_getElem? hth
  refine ⟨h.page, h.active, threads_setThread h.threads hok, ?_, h.polled, h.polls_le, ?_, ?_,
    h.origin_setThread hth th' hissued, h.handover⟩
  · intro hhidden hflush
    refine threads_setThread (h.dropped hhidden hflush) ?_
    have hold := h.dropped hhidden hflush th hmem
    by_contra hnew
    rcases hcached (by simpa using hnew) with hcached | hnot
    · simp [hold] at hcached
    · exact hnot hhidden
  · show s.unpoisons = total Thread.weight (s.threads.set t th')
    have hsum := total_set Thread.weight th' hth
    have hold := h.unpoisons
    omega
  · show (reported s.handover).length = total Thread.stops (s.threads.set t th')
    have hsum := total_set Thread.stops th' hth
    have hold := h.stops
    omega

/-- Only the count of handlers in `page` changes. -/
theorem setFaulting (h : Invariant arch s) (n : Nat) :
    Invariant arch { s with page := { s.page with faulting := n } } := by
  refine ⟨⟨h.page.intended, h.page.entry, h.page.shown⟩, h.active, ?_, h.dropped, h.polled,
    h.polls_le, h.unpoisons, h.stops, h.origin, h.handover⟩
  intro th hth
  exact (h.threads th hth).mono le_rfl (h.threads th hth).backed Or.inl

/-- A handler shows the entry; the poisoning is over for everybody. -/
theorem unpoison (h : Invariant arch s) (hth : s.threads[t]? = some th) (hpc : th.pc = .sawPoisoned) :
    Invariant arch { s.setThread t { th with pc := .unpoisoned } with
      page := Poison.step arch s.page .faultUnpoison
      unpoisons := s.unpoisons + 1 } := by
  have hok := h.threads th (List.mem_of_getElem? hth)
  rcases shown_of_unpoison h.page (hok.backed hpc) with ⟨hpage, hshown⟩
  refine ⟨hpage, h.active, ?_, fun hhidden => absurd hhidden hshown,
    fun hhidden => absurd hhidden hshown, ?_, ?_, ?_,
    h.origin_setThread hth _ (List.Subset.refl _), h.handover⟩
  · refine threads_setThread ?_ ?_
    · intro x hx
      exact (h.threads x hx).mono le_rfl (h.threads x hx).backed fun hhidden => absurd hhidden hshown
    · have hdue := hok.due_le
      refine ⟨?_, hok.user, fun _ => hok.sampled (Or.inl hpc), by simp, ?_,
        fun hhidden => absurd hhidden hshown⟩
      · simpa [Thread.current, hpc] using hok.order
      · show Thread.due { th with pc := .unpoisoned } ≤ s.polls
        simpa [Thread.due, hpc] using hdue
  · have hle := h.polls_le
    have hone : (if Hidden arch s.page then 1 else 0) ≤ 1 := by split <;> omega
    simp only [State.setThread, if_neg hshown]
    omega
  · show s.unpoisons + 1 = total Thread.weight (s.threads.set t { th with pc := .unpoisoned })
    have hsum := total_set Thread.weight { th with pc := .unpoisoned } hth
    have hold := h.unpoisons
    have hbefore : th.weight = th.stops := by simp [Thread.weight, hpc]
    have hafter : Thread.weight { th with pc := .unpoisoned } = th.stops + 1 := rfl
    omega
  · show (reported s.handover).length = total Thread.stops (s.threads.set t _)
    have hsum := total_set Thread.stops { th with pc := .unpoisoned } hth
    have hold := h.stops
    simp only at hsum
    omega

theorem report (h : Invariant arch s) (hth : s.threads[t]? = some th) (hpc : th.pc = .unpoisoned)
    {handover : Handover.State} (hstep : Handover.step s.handover (.report th.sample) = some handover) :
    Invariant arch { s.setThread t { th with pc := .reporting, stops := th.stops + 1 } with
      handover := handover
      waiters := s.waiters ++ [t] } := by
  have hmem := List.mem_of_getElem? hth
  have hok := h.threads th hmem
  have hreported := reported_report hstep
  have hdue : Thread.due { th with pc := .reporting, stops := th.stops + 1 } = th.due := by
    simp [Thread.due, hpc]
  have hissued : th.sample ∈ th.issued := by
    rw [hok.order]
    simp [Thread.current, hpc]
  refine ⟨h.page, h.active, threads_setThread h.threads ?_, ?_, h.polled, h.polls_le, ?_, ?_, ?_,
    extend_run h.handover hstep⟩
  · refine ⟨?_, hok.user, fun _ => hok.sampled (Or.inr (Or.inl hpc)), by simp, ?_, ?_⟩
    · simpa [Thread.current, hpc] using hok.order
    · rw [hdue]
      exact hok.due_le
    · intro hhidden _
      rw [hdue]
      exact hok.due_lt hhidden (by simp [hpc])
  · intro hhidden hflush
    exact threads_setThread (h.dropped hhidden hflush) (h.dropped hhidden hflush th hmem)
  · show s.unpoisons = total Thread.weight (s.threads.set t _)
    have hsum := total_set Thread.weight { th with pc := .reporting, stops := th.stops + 1 } hth
    have hold := h.unpoisons
    have hbefore : th.weight = th.stops + 1 := by simp [Thread.weight, hpc]
    have hafter : Thread.weight { th with pc := .reporting, stops := th.stops + 1 } =
        th.stops + 1 := rfl
    omega
  · show (reported handover).length = total Thread.stops (s.threads.set t _)
    have hsum := total_set Thread.stops { th with pc := .reporting, stops := th.stops + 1 } hth
    have hold := h.stops
    have hlen := congrArg List.length hreported
    simp only [List.length_append, List.length_singleton] at hsum hlen
    omega
  · intro x hx
    rw [hreported] at hx
    rcases List.mem_append.1 hx with hx | hx
    · exact h.origin_setThread hth { th with pc := .reporting, stops := th.stops + 1 }
        (List.Subset.refl _) x hx
    · obtain rfl := List.mem_singleton.1 hx
      rcases List.getElem?_eq_some_iff.1 hth with ⟨ht, _⟩
      exact ⟨hok.sampled (Or.inr (Or.inl hpc)), { th with pc := .reporting, stops := th.stops + 1 },
        List.mem_set ht _, hissued⟩

/-- The steps of `sample_read`, and those of a report until it leaves the mutex. -/
theorem setHandover (h : Invariant arch s) {handover : Handover.State} {e : Handover.Event}
    (hstep : Handover.step s.handover e = some handover)
    (hperm : (reported handover).Perm (reported s.handover)) (waiters : List Nat)
    (owner : Option Nat) :
    Invariant arch { s with handover := handover, waiters := waiters, owner := owner } := by
  refine ⟨h.page, h.active, h.threads, h.dropped, h.polled, h.polls_le, h.unpoisons, ?_, ?_,
    extend_run h.handover hstep⟩
  · exact hperm.length_eq.trans h.stops
  · intro x hx
    exact h.origin x (hperm.mem_iff.1 hx)

/-- A thread that is not about to show the entry faults, or makes its access again. -/
theorem goTo (h : Invariant arch s) (hth : s.threads[t]? = some th)
    (hpc : th.pc = .access ∨ th.pc = .faulted ∨ th.pc = .reporting) {pc : Pc}
    (hnew : pc = .access ∨ pc = .faulted) : Invariant arch (s.setThread t { th with pc := pc }) := by
  have hok := h.threads th (List.mem_of_getElem? hth)
  have hrunning : th.pc ≠ .running ∧ pc ≠ .running := by
    refine ⟨?_, ?_⟩
    · rcases hpc with hpc | hpc | hpc <;> simp [hpc]
    · rcases hnew with rfl | rfl <;> simp
  have hflight : th.pc ≠ .sawPoisoned ∧ th.pc ≠ .unpoisoned := by
    rcases hpc with hpc | hpc | hpc <;> simp [hpc]
  have hnot : pc ≠ .sawPoisoned ∧ pc ≠ .unpoisoned ∧ pc ≠ .reporting := by
    rcases hnew with rfl | rfl <;> simp
  refine h.setThread hth (hok.move hflight (by simp [Thread.Stopped, hnot]) rfl ?_ hok.user)
    Or.inl (by simp [Thread.weight, hflight, hnot]) rfl (List.Subset.refl _)
  simpa [Thread.current, hrunning] using hok.order

/-- The test finds the entry hidden. -/
theorem check (h : Invariant arch s) (hth : s.threads[t]? = some th) (hpc : th.pc = .faulted)
    (hsampled : Sampled arch th.sample.addr) (hhidden : Hidden arch s.page) :
    Invariant arch { s.setThread t { th with pc := .sawPoisoned } with
      page := Poison.step arch s.page .faultCheck } := by
  have hok := h.threads th (List.mem_of_getElem? hth)
  have hlt := hok.due_lt hhidden (by simp [hpc])
  have hpage : Poison.step arch s.page .faultCheck =
      { s.page with faulting := s.page.faulting + 1 } := if_pos hhidden
  have hnext : Invariant arch (s.setThread t { th with pc := .sawPoisoned }) := by
    refine h.setThread hth ⟨?_, hok.user, fun _ => hsampled, fun _ => intended_ne_zero h.page hhidden,
      ?_, by simp⟩ Or.inl (by simp [Thread.weight, hpc]) rfl (List.Subset.refl _)
    · simpa [Thread.current, hpc] using hok.order
    · simpa [Thread.due, hpc] using hlt
  rw [hpage]
  exact hnext.setFaulting _

theorem threadStep (h : Invariant arch s) (hth : s.threads[t]? = some th) {action : Action}
    (hen : Enabled arch s (.thread t action)) (hs' : threadStep arch s t th action = some s') :
    Invariant arch s' := by
  have hok := h.threads th (List.mem_of_getElem? hth)
  -- an access that is carried out is the one that was begun last
  have hcarry : th.pc = .access → th.issued = th.carried ++ [th.sample] := by
    intro hpc
    simpa [Thread.current, hpc] using hok.order
  refine threadStep_cases hs' ?_ ?_ ?_ ?_ ?_ ?_ ?_ ?_ ?_ ?_
  · rintro sample rfl hpc
    have hdone : th.issued = th.carried := by simpa [Thread.current, hpc] using hok.order
    refine h.setThread hth (hok.move (by simp [hpc]) (by simp [Thread.Stopped]) rfl ?_ ?_)
      Or.inl (by simp [Thread.weight, hpc]) rfl (List.subset_append_left _ _)
    · simp [Thread.current, hdone]
    · intro x hx
      rcases List.mem_append.1 hx with hx | hx
      · exact hok.user x hx
      · obtain rfl := List.mem_singleton.1 hx
        exact hen
  · intro hpc hgo
    refine h.setThread hth (hok.move (by simp [hpc]) (by simp [Thread.Stopped]) rfl ?_ hok.user)
      ?_ (by simp [Thread.weight, hpc]) rfl (List.Subset.refl _)
    · simpa [Thread.current] using hcarry hpc
    · intro _
      exact hgo.imp id fun hvisible hhidden => not_visible_of_hidden hhidden hvisible
  · intro hpc _
    refine h.setThread hth (hok.move (by simp [hpc]) (by simp [Thread.Stopped]) rfl ?_ hok.user)
      Or.inl (by simp [Thread.weight, hpc]) rfl (List.Subset.refl _)
    simpa [Thread.current] using hcarry hpc
  · intro hpc
    exact h.goTo hth (Or.inl hpc) (Or.inr rfl)
  · intro hpc hsampled hhidden
    exact h.check hth hpc hsampled hhidden
  · intro hpc
    exact h.goTo hth (Or.inr (Or.inl hpc)) (Or.inl rfl)
  · intro _ hpc
    exact h.unpoison hth hpc
  · intro handover hpc hstep
    exact h.report hth hpc hstep
  · intro hvisible
    refine h.setThread hth
      ⟨hok.order, hok.user, hok.sampled, hok.backed, hok.due_le, hok.due_lt⟩ ?_ rfl rfl
      (List.Subset.refl _)
    exact fun _ => Or.inr fun hhidden => not_visible_of_hidden hhidden hvisible
  · exact h.setThread hth hok.forget (by simp [Thread.forget]) rfl rfl (List.Subset.refl _)

/-- The threads lose their translations. -/
theorem forget_threads {P : Thread → Prop} (h : ∀ th ∈ s.threads, P th.forget) :
    ∀ th ∈ s.threads.map Thread.forget, P th := by
  intro x hx
  rcases List.mem_map.1 hx with ⟨th, hth, rfl⟩
  exact h th hth

theorem total_forget {w : Thread → Nat} (hw : ∀ th : Thread, w th.forget = w th)
    (threads : List Thread) : total w (threads.map Thread.forget) = total w threads := by
  simp [total, Function.comp_def, hw]

theorem origin_forget (h : Invariant arch s) : ∀ x ∈ reported s.handover,
    Sampled arch x.addr ∧ ∃ th ∈ s.threads.map Thread.forget, x ∈ th.issued := by
  intro x hx
  rcases h.origin x hx with ⟨hsampled, th, hth, hmem⟩
  exact ⟨hsampled, th.forget, List.mem_map_of_mem hth, hmem⟩

theorem spawn (h : Invariant arch s) :
    Invariant arch { s with threads := s.threads ++ [.start] } := by
  have hadd : ∀ w : Thread → Nat, w .start = 0 →
      total w (s.threads ++ [.start]) = total w s.threads := by
    intro w hw
    simp [total, hw]
  refine ⟨h.page, h.active, ?_, ?_, h.polled, h.polls_le, ?_, ?_, ?_, h.handover⟩
  · intro th hth
    rcases List.mem_append.1 hth with hth | hth
    · exact h.threads th hth
    · obtain rfl := List.mem_singleton.1 hth
      exact ⟨rfl, by simp [Thread.start], by simp [Thread.Stopped, Thread.start],
        by simp [Thread.start], Nat.zero_le _, fun hhidden _ => h.polled hhidden⟩
  · intro hhidden hflush th hth
    rcases List.mem_append.1 hth with hth | hth
    · exact h.dropped hhidden hflush th hth
    · obtain rfl := List.mem_singleton.1 hth
      rfl
  · exact h.unpoisons.trans (hadd Thread.weight rfl).symm
  · exact h.stops.trans (hadd Thread.stops rfl).symm
  · intro x hx
    rcases h.origin x hx with ⟨hsampled, th, hth, hmem⟩
    exact ⟨hsampled, th, List.mem_append_left _ hth, hmem⟩

theorem flush (h : Invariant arch s) :
    Invariant arch { s with flushing := false, threads := s.threads.map Thread.forget } := by
  refine ⟨h.page, h.active, forget_threads fun th hth => (h.threads th hth).forget,
    fun _ _ => forget_threads fun _ _ => rfl, h.polled, h.polls_le, ?_, ?_, h.origin_forget,
    h.handover⟩
  · exact h.unpoisons.trans (total_forget (fun _ => rfl) s.threads).symm
  · exact h.stops.trans (total_forget (fun _ => rfl) s.threads).symm

/-- The timer hides the entry: one more poisoning for everybody. -/
theorem poison (h : Invariant arch s) (hpoisonable : arch.p4dSamplePoisonable s.page.entry = true) :
    Invariant arch { s with
      page := Poison.step arch s.page (.tick true)
      flushing := true
      polls := s.polls + 1 } := by
  have hpop := populated_of_poisonable h.page hpoisonable
  have hshown := not_hidden_of_populated hpop
  have hpage : Poison.step arch s.page (.tick true) =
      { s.page with entry := arch.p4dSamplePoison s.page.entry } := if_pos hpoisonable
  have hinv : Poison.Invariant arch (Poison.step arch s.page (.tick true)) :=
    h.page.kroomPoison h.active
  rw [hpage] at hinv ⊢
  refine ⟨hinv, h.active, ?_, fun _ hflush => by simp at hflush, fun _ => Nat.succ_pos _, ?_,
    h.unpoisons, h.stops, h.origin, h.handover⟩
  · intro th hth
    exact (h.threads th hth).mono (Nat.le_succ _) (h.threads th hth).backed
      fun _ => Or.inr (Nat.lt_succ_self _)
  · have hle := h.polls_le
    have hnow : Hidden arch { s.page with entry := arch.p4dSamplePoison s.page.entry } :=
      poisoned_poison hpop
    rw [if_neg hshown] at hle
    simp only [if_pos hnow]
    omega

theorem populate (h : Invariant arch s) {v : BitVec 64} (hempty : s.page.intended = 0#64)
    (hv : arch.populated v = true) :
    Invariant arch { s with page := Poison.step arch s.page (.populate v) } := by
  have hpage : Poison.Invariant arch (Poison.step arch s.page (.populate v)) :=
    ⟨Or.inr hv, Or.inl rfl, fun _ => rfl⟩
  have hshown := not_hidden_of_shown hpage rfl
  have hold : ¬ Hidden arch s.page := fun hhidden => intended_ne_zero h.page hhidden hempty
  refine ⟨hpage, h.active, ?_, fun hhidden => absurd hhidden hshown,
    fun hhidden => absurd hhidden hshown, ?_, h.unpoisons, h.stops, h.origin, h.handover⟩
  · intro th hth
    exact (h.threads th hth).mono le_rfl
      (fun hpc => absurd hempty ((h.threads th hth).backed hpc))
      fun hhidden => absurd hhidden hshown
  · have hle := h.polls_le
    rw [if_neg hold] at hle
    simpa only [if_neg hshown] using hle

/-- A poisoning may be lost when the entry is torn down. -/
theorem clear (h : Invariant arch s) (hquiet : ∀ th ∈ s.threads, ¬ th.Handling arch) :
    Invariant arch { s with
      page := Poison.step arch s.page .clear
      threads := s.threads.map Thread.forget
      clears := s.clears + 1 } := by
  have hpage : Poison.Invariant arch (Poison.step arch s.page .clear) :=
    ⟨Or.inl rfl, Or.inl rfl, fun _ => rfl⟩
  have hshown := not_hidden_of_shown hpage rfl
  refine ⟨hpage, h.active, ?_, fun hhidden => absurd hhidden hshown,
    fun hhidden => absurd hhidden hshown, ?_, ?_, ?_, h.origin_forget, h.handover⟩
  · refine forget_threads fun th hth => ?_
    have hok := h.threads th hth
    refine hok.forget.mono le_rfl ?_ fun hhidden => absurd hhidden hshown
    -- a handler that has found the entry hidden works on it
    intro hpc
    have hsaw : th.pc = .sawPoisoned := hpc
    exact absurd ⟨by simp [hsaw], by simp [hsaw], hok.sampled (Or.inl hsaw)⟩ (hquiet th hth)
  · have hle := h.polls_le
    have hone : (if Hidden arch s.page then 1 else 0) ≤ 1 := by split <;> omega
    simp only [if_neg hshown]
    omega
  · exact h.unpoisons.trans (total_forget (fun _ => rfl) s.threads).symm
  · exact h.stops.trans (total_forget (fun _ => rfl) s.threads).symm

theorem resume (h : Invariant arch s)
    (hpc : ∀ t ∈ s.owner, ∀ th, s.threads[t]? = some th → th.pc = .reporting) :
    Invariant arch s.resume := by
  unfold State.resume
  split
  · exact h
  · rename_i t howner
    split
    · exact h
    · rename_i th hth
      have hnext : Invariant arch (s.setThread t { th with pc := .access }) :=
        h.goTo hth (Or.inr (Or.inr (hpc t howner th hth))) (Or.inl rfl)
      exact ⟨hnext.page, hnext.active, hnext.threads, hnext.dropped, hnext.polled, hnext.polls_le,
        hnext.unpoisons, hnext.stops, hnext.origin, hnext.handover⟩

theorem step (h : Invariant arch s) (hqueued : Queued s) {e : Event} (hen : Enabled arch s e)
    (hs' : Sampling.step arch s e = some s') : Invariant arch s' := by
  cases e with
  | spawn =>
      obtain rfl := Option.some.inj hs'
      exact h.spawn
  | thread t action =>
      simp only [Sampling.step] at hs'
      split at hs'
      · rename_i th hth
        exact h.threadStep hth hen hs'
      · cases hs'
  | acquire i =>
      simp only [Sampling.step] at hs'
      split at hs'
      · rename_i handover t hstep _
        obtain rfl := Option.some.inj hs'
        exact h.setHandover hstep (reported_acquire hstep) (s.waiters.eraseIdx i) (some t)
      · cases hs'
  | write =>
      rcases Option.map_eq_some_iff.1 hs' with ⟨handover, hstep, rfl⟩
      have hnext := h.setHandover hstep (reported_write hstep) s.waiters s.owner
      split
      · refine hnext.resume ?_
        intro t ht th hth
        exact hqueued.pc_owner ht hth
      · exact hnext
  | reader e =>
      simp only [Sampling.step] at hs'
      split at hs'
      · rename_i he
        rcases Option.map_eq_some_iff.1 hs' with ⟨handover, hstep, rfl⟩
        exact h.setHandover hstep (by rw [reported_reader he hstep]) s.waiters s.owner
      · cases hs'
  | tick locked =>
      simp only [Sampling.step] at hs'
      split at hs'
      · cases hs'
      · split at hs'
        · rename_i hpoison
          obtain rfl := Option.some.inj hs'
          exact h.poison hpoison.2
        · obtain rfl := Option.some.inj hs'
          exact h
  | flush =>
      simp only [Sampling.step] at hs'
      split at hs'
      · obtain rfl := Option.some.inj hs'
        exact h.flush
      · cases hs'
  | populate v =>
      obtain rfl := Option.some.inj hs'
      exact h.populate hen.1 hen.2
  | clear =>
      obtain rfl := Option.some.inj hs'
      exact h.clear hen

end Invariant

theorem run_invariant {arch : Arch} {es : List Event} {s : State}
    (h : Run (system arch) opened es s) : Invariant arch s ∧ Queued s := by
  refine Run.invariant_state (P := fun s => Invariant arch s ∧ Queued s)
    ⟨Invariant.init arch, Queued.init⟩ ?_ h
  intro s e s' hs hen hst
  exact ⟨hs.1.step hs.2 hen hst, hs.2.step hst⟩

/-! ## While the entry is hidden -/

/-- The accesses of the window that a thread has carried out. -/
def Thread.through (arch : Arch) (th : Thread) : Nat :=
  th.carried.countP fun x => Sampled arch x.addr

section Hidden

variable {arch : Arch} {s s' : State} {t : Nat} {th : Thread}

/-- No access to the window comes through. -/
theorem threadStep_hidden {action : Action} (hhidden : Hidden arch s.page) (hcached : th.cached = false)
    (hne : action ≠ .unpoison) (hs' : threadStep arch s t th action = some s') :
    ∃ th', s'.threads = s.threads.set t th' ∧ th'.through arch = th.through arch ∧
      Hidden arch s'.page ∧ s'.flushing = s.flushing := by
  have hinvisible := not_visible_of_hidden hhidden
  refine threadStep_cases (P := fun s' => ∃ th', s'.threads = s.threads.set t th' ∧
    th'.through arch = th.through arch ∧ Hidden arch s'.page ∧ s'.flushing = s.flushing)
    hs' ?_ ?_ ?_ ?_ ?_ ?_ ?_ ?_ ?_ ?_
  · intro sample _ _
    exact ⟨_, rfl, rfl, hhidden, rfl⟩
  · -- neither a translation nor the entry lets the access through
    intro _ hgo
    rcases hgo with hgo | hgo
    · simp [hcached] at hgo
    · exact absurd hgo hinvisible
  · intro _ hout
    exact ⟨_, rfl, by simp [Thread.through, hout], hhidden, rfl⟩
  · intro _
    exact ⟨_, rfl, rfl, hhidden, rfl⟩
  · intro _ _ _
    refine ⟨_, rfl, rfl, ?_, rfl⟩
    simp only [Poison.step]
    split <;> exact hhidden
  · intro _
    exact ⟨_, rfl, rfl, hhidden, rfl⟩
  · intro heq
    exact absurd heq hne
  · intro handover _ _
    exact ⟨_, rfl, rfl, hhidden, rfl⟩
  · intro hvisible
    exact absurd hvisible hinvisible
  · exact ⟨_, rfl, rfl, hhidden, rfl⟩

/-- The return from the handler carries out nothing. -/
theorem resume_hidden (arch : Arch) (s : State) :
    s.resume.page = s.page ∧ s.resume.flushing = s.flushing ∧
      total (Thread.through arch) s.resume.threads = total (Thread.through arch) s.threads := by
  unfold State.resume
  split
  · exact ⟨rfl, rfl, rfl⟩
  · split
    · exact ⟨rfl, rfl, rfl⟩
    · rename_i th hth
      have hsum := total_set (Thread.through arch) { th with pc := .access } hth
      refine ⟨rfl, rfl, ?_⟩
      simpa [State.setThread, Thread.through] using hsum

theorem step_hidden {e : Event} (h : Invariant arch s) (hhidden : Hidden arch s.page)
    (hflush : s.flushing = false) (hen : Enabled arch s e) (hclear : e ≠ .clear)
    (hunpoison : ∀ t, e ≠ .thread t .unpoison) (hs' : step arch s e = some s') :
    Hidden arch s'.page ∧ s'.flushing = false ∧
      total (Thread.through arch) s'.threads = total (Thread.through arch) s.threads := by
  cases e with
  | spawn =>
      obtain rfl := Option.some.inj hs'
      exact ⟨hhidden, hflush, by simp [total, Thread.through, Thread.start]⟩
  | thread t action =>
      simp only [step] at hs'
      split at hs'
      · rename_i th hth
        have hcached := h.dropped hhidden hflush th (List.mem_of_getElem? hth)
        have hne : action ≠ .unpoison := fun heq => hunpoison t (by rw [heq])
        rcases threadStep_hidden hhidden hcached hne hs' with
          ⟨th', hthreads, hthrough, hhidden', hflush'⟩
        have hsum := total_set (Thread.through arch) th' hth
        rw [hthreads]
        exact ⟨hhidden', hflush'.trans hflush, by omega⟩
      · cases hs'
  | acquire i =>
      simp only [step] at hs'
      split at hs'
      · obtain rfl := Option.some.inj hs'
        exact ⟨hhidden, hflush, rfl⟩
      · cases hs'
  | write =>
      rcases Option.map_eq_some_iff.1 hs' with ⟨handover, _, rfl⟩
      split
      · rcases resume_hidden arch { s with handover := handover } with ⟨hpage, hflush', htotal⟩
        rw [hpage, hflush', htotal]
        exact ⟨hhidden, hflush, rfl⟩
      · exact ⟨hhidden, hflush, rfl⟩
  | reader e =>
      simp only [step] at hs'
      split at hs'
      · rcases Option.map_eq_some_iff.1 hs' with ⟨handover, _, rfl⟩
        exact ⟨hhidden, hflush, rfl⟩
      · cases hs'
  | tick locked =>
      -- what is hidden is not hidden a second time
      simp only [step] at hs'
      rw [if_neg (by simp [hflush]), if_neg] at hs'
      · obtain rfl := Option.some.inj hs'
        exact ⟨hhidden, hflush, rfl⟩
      · rintro ⟨_, hpoisonable⟩
        exact not_hidden_of_populated (populated_of_poisonable h.page hpoisonable) hhidden
  | flush =>
      simp only [step] at hs'
      rw [if_neg (by simp [hflush])] at hs'
      cases hs'
  | populate v => exact absurd hen.1 (intended_ne_zero h.page hhidden)
  | clear => exact absurd rfl hclear

/-- As long as no handler shows the entry, no thread carries out an access to the window. -/
theorem run_hidden {es : List Event} (h : Invariant arch s) (hqueued : Queued s)
    (hhidden : Hidden arch s.page) (hflush : s.flushing = false)
    (hrun : Run (system arch) s es s') (hclear : .clear ∉ es)
    (hunpoison : ∀ t, .thread t .unpoison ∉ es) :
    total (Thread.through arch) s'.threads = total (Thread.through arch) s.threads := by
  have hkeep := Run.invariant (P := fun es s' => Invariant arch s' ∧ Queued s' ∧
    (.clear ∉ es → (∀ t, .thread t .unpoison ∉ es) → Hidden arch s'.page ∧ s'.flushing = false ∧
      total (Thread.through arch) s'.threads = total (Thread.through arch) s.threads))
    ⟨h, hqueued, fun _ _ => ⟨hhidden, hflush, rfl⟩⟩ ?_ hrun
  · exact (hkeep.2.2 hclear hunpoison).2.2
  · intro es x e x' hx hen hst
    refine ⟨hx.1.step hx.2.1 hen hst, hx.2.1.step hst, ?_⟩
    intro hclear hunpoison
    simp only [List.mem_append, List.mem_singleton, not_or] at hclear hunpoison
    rcases hx.2.2 hclear.1 (fun t => (hunpoison t).1) with ⟨hold, hflush, htotal⟩
    rcases step_hidden hx.1 hold hflush hen (Ne.symm hclear.2) (fun t => Ne.symm (hunpoison t).2) hst
      with ⟨hnew, hflush', htotal'⟩
    exact ⟨hnew, hflush', htotal'.trans htotal⟩

end Hidden

/-! ## What sampling promises -/

/-- In every state the threads, the timer and the reader can reach: -/
structure Samples (arch : Arch) (s : State) : Prop where
  /-- Every sample that has been read is an access of a thread, to the window. -/
  accesses : ∀ r ∈ s.handover.reads,
    kroomBaseVa4 arch ≤ r.2.addr ∧ ∃ th ∈ s.threads, r.2 ∈ th.issued
  /-- No report is read twice, and later reads return later reports. -/
  increasing : s.handover.reads.Pairwise fun a b => a.1 < b.1
  /-- Every thread makes its accesses once and in order, stopped or not. -/
  order : ∀ th ∈ s.threads, th.issued = th.carried ++ th.current
  /-- The reports are the stops of the threads. -/
  stops : (reported s.handover).length = total Thread.stops s.threads
  /-- No thread has been stopped more often than the timer has hidden the entry. -/
  atMost : ∀ th ∈ s.threads, th.stops ≤ s.polls
  /-- The poisonings are no more than the reports that were made or are about to be made, the times
  the entry was torn down, and the poisoning that is not over. -/
  atLeast : s.polls ≤ total Thread.weight s.threads + s.clears + if Hidden arch s.page then 1 else 0
  /-- With the entry hidden and the translations dropped, no access to the window is carried out
  before a handler shows the entry or the entry is torn down. -/
  next : Hidden arch s.page → s.flushing = false → ∀ es s', Run (system arch) s es s' →
    .clear ∉ es → (∀ t, .thread t .unpoison ∉ es) →
    total (Thread.through arch) s'.threads = total (Thread.through arch) s.threads

namespace Invariant

variable {arch : Arch} {s : State}

/-- What the reader gets is an access to the window. -/
theorem reads (h : Invariant arch s) {r : Nat × Sample} (hr : r ∈ s.handover.reads) :
    kroomBaseVa4 arch ≤ r.2.addr ∧ r.2.addr < kroomBaseVa4 arch + 2 ^ 39 ∧
      ∃ th ∈ s.threads, r.2 ∈ th.issued := by
  rcases h.handover with ⟨es, hrun⟩
  have hlog := ((Handover.Invariant.run hrun).reads.returned r hr).2
  have hmem : r.2 ∈ reported s.handover := by
    have hin := List.mem_of_getElem? hlog
    simp [reported, hin]
  rcases h.origin r.2 hmem with ⟨hsampled, th, hth, hissued⟩
  have huser := (h.threads th hth).user r.2 hissued
  exact ⟨(sampled_iff huser).1 hsampled, huser, th, hth, hissued⟩

theorem samples (h : Invariant arch s) (hqueued : Queued s) : Samples arch s := by
  rcases h.handover with ⟨es, hrun⟩
  refine ⟨?_, (Handover.Invariant.run hrun).reads.increasing,
    fun th hth => (h.threads th hth).order, h.stops, ?_, ?_, ?_⟩
  · intro r hr
    rcases h.reads hr with ⟨hbase, _, hissued⟩
    exact ⟨hbase, hissued⟩
  · intro th hth
    have hle := (h.threads th hth).due_le
    unfold Thread.due at hle
    omega
  · rw [← h.unpoisons]
    exact h.polls_le
  · intro hhidden hflush es s' hrun' hclear hunpoison
    exact run_hidden h hqueued hhidden hflush hrun' hclear hunpoison

end Invariant

/-- However threads, timer and reader interleave, what is read are accesses to the window, and the
stops keep up with the poisonings. -/
theorem samples_accesses (arch : Arch) {es : List Event} {s : State}
    (h : Run (system arch) opened es s) : Samples arch s := by
  rcases run_invariant h with ⟨hinv, hqueued⟩
  exact hinv.samples hqueued

/-- Two threads find the entry hidden; the timer hides it again after the first of them has shown it,
and the second shows it once more: no thread has found the second poisoning.  The first report is
read. -/
theorem samples_accesses_two_threads :
    ∃ s, Run (system .x86) opened
        [.spawn, .spawn, .populate 0x1067, .thread 0 (.issue ⟨0x7f8000001000, 1⟩), .thread 0 .walk,
          .tick true, .flush, .thread 0 (.issue ⟨0x7f8000002000, 2⟩), .thread 0 .walk,
          .thread 1 (.issue ⟨0x7f8000003000, 3⟩), .thread 1 .walk, .thread 0 .check, .thread 1 .check,
          .thread 0 .unpoison, .tick true, .thread 1 .unpoison, .flush, .thread 0 .report,
          .thread 1 .report, .acquire 0, .write, .write, .write, .write, .write,
          .reader (.read 16 true), .reader .down, .reader .lockRead, .reader .copy, .reader .copy,
          .reader .copy, .reader .copy, .thread 0 .walk] s ∧
      s.handover.reads = [(1, ⟨0x7f8000002000, 2⟩)] ∧ s.polls = 2 ∧ Samples .x86 s := by
  rcases Run.of_exec (system .x86) opened
    [.spawn, .spawn, .populate 0x1067, .thread 0 (.issue ⟨0x7f8000001000, 1⟩), .thread 0 .walk,
      .tick true, .flush, .thread 0 (.issue ⟨0x7f8000002000, 2⟩), .thread 0 .walk,
      .thread 1 (.issue ⟨0x7f8000003000, 3⟩), .thread 1 .walk, .thread 0 .check, .thread 1 .check,
      .thread 0 .unpoison, .tick true, .thread 1 .unpoison, .flush, .thread 0 .report,
      .thread 1 .report, .acquire 0, .write, .write, .write, .write, .write,
      .reader (.read 16 true), .reader .down, .reader .lockRead, .reader .copy, .reader .copy,
      .reader .copy, .reader .copy, .thread 0 .walk] (by decide) with ⟨s, hs, hrun⟩
  have hsamples := samples_accesses .x86 hrun
  obtain rfl := Option.some.inj hs
  exact ⟨_, hrun, by decide, by decide, hsamples⟩

end Sampling
end Kernel
end Shambles
