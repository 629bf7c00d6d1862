import Shambles.Lru.Addresses
import Shambles.Plugins.Sampler

/-!
# Accesses — from the accesses of a program to the tiers of its memory

The whole way of a sample: a thread of the program accesses its memory while the page-table entry is
hidden, the fault handler reports the access, the sampler thread reads the report and hands its
address to `handleSample`, which moves the chunk to the front if the region map attributes the address
to one.  The steps of the kernel, the callbacks of the allocator and the handled samples come in any
order, a callback or a handled sample being one step.  The tiers are those of an ideal plugin that was
told the same allocations and releases, and accesses of the program as samples.

The callbacks are those the region map can stand (`Front.Enabled`): large blocks lie in the sampled
window and overlap no tracked block.
-/

namespace Shambles
namespace Lru

open Structures Plugins
open Kernel.Poison (Arch kroomBaseVa4)

/-- What kernel and plugin promise together, for the reports `rs` the plugin was given. -/
structure FollowsAccesses {c : Setup} (arch : Arch) (C : Nat) (s : Sampler.State c State)
    (rs : List Report) : Prop where
  samples : Kernel.Sampling.Samples arch s.kernel
  /-- The sampler has handled what it has read, up to one sample in hand. -/
  inHand : s.handled ≤ s.kernel.handover.reads.length ∧
    s.kernel.handover.reads.length ≤ s.handled + 1
  handled : rs.filterMap Sampler.sampledAddr =
    (s.kernel.handover.reads.take s.handled).map fun r => r.2.addr
  /-- What the plugin takes for samples are accesses of the program. -/
  accesses : ∀ addr ∈ rs.filterMap Sampler.sampledAddr,
    ∃ th ∈ s.kernel.threads, ∃ pc, ⟨addr, pc⟩ ∈ th.issued
  order : KeepsOrder C s.plugin (Ideal.after c rs)
  /-- The sample in hand can be handled. -/
  defined : s.handled < s.kernel.handover.reads.length →
    ∃ s', Sampler.step arch policy s .handleSample = some s'

theorem tiers_follow_accesses {arch : Arch} {c : Setup} {C : Nat} (hC : 1 ≤ C) (hmax : C ≤ INT_MAX)
    (hwindow : c.window = kroomBaseVa4 arch / 2 ^ 39) {es : List Sampler.Event}
    {s : Sampler.State c State}
    (h : Run (Sampler.system arch policy c) (Sampler.init c (lruInit C)) es s) :
    FollowsAccesses arch C s (Sampler.reports arch policy c (lruInit C) es) := by
  rcases Sampler.run_plugin hwindow h with ⟨hok, hrun⟩
  rcases tells_run hmax hrun with ⟨hex, href, htells⟩
  have horder := htells.keepsOrder hC hex href
  have hhandled := Sampler.sampledAddr_reports hwindow h
  refine ⟨hok.kernel.1.samples hok.kernel.2, ⟨hok.handled_le, hok.le_handled⟩, hhandled, ?_, horder,
    ?_⟩
  · intro addr haddr
    rw [hhandled] at haddr
    rcases List.mem_map.1 haddr with ⟨r, hr, rfl⟩
    rcases (hok.kernel.1.reads (List.mem_of_mem_take hr)).2.2 with ⟨th, hth, hissued⟩
    exact ⟨th, hth, r.2.pc, hissued⟩
  · intro hlt
    have hr := List.getElem?_eq_getElem hlt
    have hin := hok.inWindow hwindow (List.getElem_mem hlt)
    rcases horder.defined (.sample _) hin with ⟨plugin, hplugin⟩
    exact ⟨_, by simp [Sampler.step, hr, hplugin]; rfl⟩

theorem sampled_window_lt : (255 + 1) * 2 ^ 39 < 2 ^ 64 := by
  decide

/-- The window that is sampled on x86, with the default threshold and chunks of 32 KiB. -/
def sampledOnX86 : Setup :=
  { Setup.halfSlots with window := 255, window_lt := sampled_window_lt }

/-- A block of four chunks is allocated.  The third is accessed while the entry is hidden; the access
is reported, read and handled, and then carried out. -/
def oneAccess : List Sampler.Event :=
  [.kernel .spawn, .callback ⟨.alloc, 0, 0x7f8000018000, 0x20000⟩ 1 0x900,
    .kernel (.populate 0x1067), .kernel (.tick true), .kernel .flush,
    .kernel (.thread 0 (.issue ⟨0x7f8000029000, 7⟩)), .kernel (.thread 0 .walk),
    .kernel (.thread 0 .check), .kernel (.thread 0 .unpoison), .kernel (.thread 0 .report),
    .kernel (.acquire 0), .kernel .write, .kernel .write, .kernel .write, .kernel .write,
    .kernel .write, .kernel (.reader (.read 16 true)), .kernel (.reader .down),
    .kernel (.reader .lockRead), .kernel (.reader .copy), .kernel (.reader .copy),
    .kernel (.reader .copy), .kernel (.reader .copy), .handleSample, .kernel (.thread 0 .walk)]

/-- One chunk fits fast memory; it is the one that was accessed. -/
theorem tiers_follow_accesses_once :
    ∃ s, Run (Sampler.system .x86 policy sampledOnX86) (Sampler.init sampledOnX86 (lruInit 1))
        oneAccess s ∧
      s.plugin.policy.loc ⟨1, 2⟩ = .fast ∧
      FollowsAccesses .x86 1 s [.callback ⟨.alloc, 0, 0x7f8000018000, 0x20000⟩ 1 0x900,
        .sample 0x7f8000029000] := by
  have hreports : Sampler.reports .x86 policy sampledOnX86 (lruInit 1) oneAccess =
      [.callback ⟨.alloc, 0, 0x7f8000018000, 0x20000⟩ 1 0x900, .sample 0x7f8000029000] := by
    decide +kernel
  rcases Run.of_exec_any (Sampler.system .x86 policy sampledOnX86)
    (Sampler.init sampledOnX86 (lruInit 1)) oneAccess
    (fun s => s.plugin.policy.loc ⟨1, 2⟩ = .fast) (by decide +kernel) with ⟨s, hrun, hloc⟩
  have hwindow : sampledOnX86.window = kroomBaseVa4 .x86 / 2 ^ 39 := rfl
  have hfollows := tiers_follow_accesses (by decide) (by decide) hwindow hrun
  rw [hreports] at hfollows
  exact ⟨s, hrun, hloc, hfollows⟩

end Lru
end Shambles
