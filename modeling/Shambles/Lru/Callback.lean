import Shambles.Lru.Refinement
import Shambles.Plugins.Front

/-!
# Callback — the LRU plugin as jemalloc sees it

`allocCallback` is what `lruInit` installs as `reportAllocFunc`.  The region map is exact here:
`addRegion` adds a region, `deleteRegion` removes it, and `getRegion` finds the region that contains
an address.  What the plugin tracks is then the multiset of the blocks of its regions.

The log hook at the top of the callback (`LOG_ALLOC`, empty unless a log or the counters are built in)
touches none of this and is left out.
-/

namespace Shambles
namespace Lru

open AssocList Structures Plugins
open Jemalloc (AllocEvent Allocation)

/-- Where `plugin_malloc` puts a new region and its chunk table; the region is a new one. -/
structure PluginMalloc where
  region : State → RegionPtr
  chunks : State → Nat
  fresh : ∀ s : State, s.regions.lookup (region s) = none

/-- A region address above all those in use. -/
def PluginMalloc.bump (chunks : Nat) : PluginMalloc where
  region := fun s => (s.regions.map Prod.fst).sum + 1
  chunks := fun _ => chunks
  fresh := by
    intro s
    refine List.lookup_eq_none_iff.2 ?_
    intro r hr
    have hle : r.1 ≤ (s.regions.map Prod.fst).sum := List.le_sum_of_mem (List.mem_map_of_mem hr)
    exact bne_iff_ne.2 (Nat.lt_succ_of_le hle).ne'

structure CallbackConfig where
  sizeThresshold : Nat
  chunkSize : Nat
  pluginMalloc : PluginMalloc
  sizeThresshold_pos : 0 < sizeThresshold

theorem sizeThresshold_pos_default : 0 < 0x10000 := by
  decide

/-- The default threshold, with chunks of 64 KiB. -/
def exampleConfig : CallbackConfig where
  sizeThresshold := 0x10000
  chunkSize := 0x10000
  pluginMalloc := .bump 0x900
  sizeThresshold_pos := sizeThresshold_pos_default

def getRegion (s : State) (addr : Nat) : Option (RegionPtr × ShamblesRegion) :=
  s.regions.find? fun r => r.2.start ≤ addr ∧ addr < r.2.start + r.2.size

def addRegion (config : CallbackConfig) (s : State) (addr size : Nat) : ShamblesRegion :=
  ⟨addr, chunkTable config.chunkSize addr size, config.pluginMalloc.chunks s⟩

def allocCallback (config : CallbackConfig) (s : State) (event : AllocEvent) : State :=
  match event.type with
  | .alloc =>
      if config.sizeThresshold ≤ event.size then
        allocRegion s (config.pluginMalloc.region s) (addRegion config s event.outPtr event.size)
      else
        s
  | .realloc => s -- todo
  | .free =>
      match getRegion s event.inPtr with
      | some (p, region) => freeRegion s p region
      | none => s

/-! ## The tracked blocks -/

def tracked (s : State) : Multiset Allocation :=
  (s.regions.map fun r => blockOf r.2 : List Allocation)

/-- What an event adds to the tracked blocks. -/
def reported (sizeThresshold : Nat) (event : AllocEvent) : Multiset Allocation :=
  if event.type = .alloc ∧ sizeThresshold ≤ event.size then
    {⟨event.outPtr, event.size⟩}
  else
    0

def UniqueKeys (s : State) : Prop :=
  (s.regions.map Prod.fst).Nodup

section Callback

variable {config : CallbackConfig} {s : State} {event : AllocEvent} {events : List AllocEvent}

theorem blockOf_addRegion (config : CallbackConfig) (s : State) (addr size : Nat) :
    blockOf (addRegion config s addr size) = ⟨addr, size⟩ := by
  simp [blockOf, addRegion, ShamblesRegion.size, chunkTable_size]

theorem UniqueKeys.allocCallback (h : UniqueKeys s) :
    UniqueKeys (allocCallback config s event) := by
  cases htype : event.type with
  | alloc =>
      by_cases hsize : config.sizeThresshold ≤ event.size
      · have hfresh := notMem_keys_of_lookup (config.pluginMalloc.fresh s)
        have hkeys := List.nodup_cons.2 ⟨hfresh, h⟩
        rwa [Lru.allocCallback, htype, if_pos hsize, UniqueKeys, allocRegion_regions, List.map_cons]
      · simpa [Lru.allocCallback, htype, hsize] using h
  | realloc => simpa [Lru.allocCallback, htype] using h
  | free =>
      cases hfound : getRegion s event.inPtr with
      | none => simpa [Lru.allocCallback, htype, hfound] using h
      | some r =>
          have hsub : (s.regions.filter fun x => x.1 ≠ r.1).Sublist s.regions :=
            List.filter_sublist
          simpa [Lru.allocCallback, htype, hfound, UniqueKeys, freeRegion_regions] using
            (hsub.map Prod.fst).nodup h

theorem UniqueKeys.allocCallbacks (h : UniqueKeys s) :
    UniqueKeys (events.foldl (Lru.allocCallback config) s) := by
  induction events generalizing s with
  | nil => exact h
  | cons event events ih => exact ih h.allocCallback

/-- An allocation that is large enough is added; a reallocation changes nothing. -/
theorem tracked_allocCallback (h : event.type ≠ .free) :
    tracked (allocCallback config s event) =
      reported config.sizeThresshold event + tracked s := by
  cases htype : event.type with
  | alloc =>
      by_cases hsize : config.sizeThresshold ≤ event.size
      · simp [allocCallback, htype, hsize, tracked, allocRegion_regions, blockOf_addRegion, reported]
      · simp [allocCallback, htype, hsize, reported]
  | realloc => simp [allocCallback, htype, reported]
  | free => exact absurd htype h

theorem tracked_allocCallbacks (h : ∀ event ∈ events, event.type ≠ .free) :
    tracked (events.foldl (allocCallback config) s) =
      (events.map (reported config.sizeThresshold)).sum + tracked s := by
  induction events generalizing s with
  | nil => simp
  | cons event events ih =>
      have hhead : event.type ≠ .free := h event List.mem_cons_self
      have htail : ∀ e ∈ events, e.type ≠ .free := fun e he => h e (List.mem_cons_of_mem _ he)
      rw [List.foldl_cons, ih htail, tracked_allocCallback hhead, List.map_cons, List.sum_cons,
        add_left_comm, add_assoc]

/-- A release takes the region that contains the address. -/
theorem tracked_free (hkeys : UniqueKeys s) (htype : event.type = .free) :
    tracked s = ((getRegion s event.inPtr).map fun r => blockOf r.2).toList +
      tracked (allocCallback config s event) := by
  cases hfound : getRegion s event.inPtr with
  | none => simp [allocCallback, htype, hfound]
  | some r =>
      have hmem : r ∈ s.regions := List.mem_of_find?_eq_some hfound
      have hperm := perm_cons_filter hkeys (lookup_of_mem hkeys hmem)
      have hsplit := Multiset.coe_eq_coe.2 (hperm.map fun r => blockOf r.2)
      simpa [allocCallback, htype, hfound, tracked, freeRegion_regions] using hsplit

/-- The region that is found contains the address. -/
theorem covers_of_getRegion {addr : Nat} {r : RegionPtr × ShamblesRegion}
    (h : getRegion s addr = some r) :
    blockOf r.2 ∈ tracked s ∧ r.2.start ≤ addr ∧ addr < r.2.start + r.2.size := by
  have hmem : r ∈ s.regions := List.mem_of_find?_eq_some h
  have hcovers := List.find?_some h
  exact ⟨Multiset.mem_coe.2 (List.mem_map.2 ⟨r, hmem, rfl⟩), by simpa using hcovers⟩

/-- A tracked block that contains the address is found. -/
theorem getRegion_isSome {addr : Nat} {a : Allocation} (ha : a ∈ tracked s)
    (hle : a.start ≤ addr) (hlt : addr < a.start + a.size) : (getRegion s addr).isSome := by
  rcases List.mem_map.1 (Multiset.mem_coe.1 ha) with ⟨r, hr, rfl⟩
  refine List.find?_isSome.2 ⟨r, hr, ?_⟩
  simpa [blockOf] using And.intro hle hlt

/-- A callback is one step of the plugin or none. -/
theorem run_allocCallback {s₀ : State} {es : List Event} (h : Run system s₀ es s)
    (hkeys : UniqueKeys s) : ∃ es', Run system s₀ es' (allocCallback config s event) := by
  cases htype : event.type with
  | alloc =>
      by_cases hsize : config.sizeThresshold ≤ event.size
      · have hpos := config.sizeThresshold_pos
        have hchunks := chunkTable_ne_nil config.chunkSize event.outPtr (by omega : 0 < event.size)
        refine ⟨es ++ [.alloc (config.pluginMalloc.region s)
          (addRegion config s event.outPtr event.size)], h.snoc ?_ ?_⟩
        · exact ⟨config.pluginMalloc.fresh s, hchunks⟩
        · simp [system, step, allocCallback, htype, hsize]
      · exact ⟨es, by simpa [allocCallback, htype, hsize] using h⟩
  | realloc => exact ⟨es, by simpa [allocCallback, htype] using h⟩
  | free =>
      cases hfound : getRegion s event.inPtr with
      | none => exact ⟨es, by simpa [allocCallback, htype, hfound] using h⟩
      | some r =>
          have hlookup := lookup_of_mem hkeys (List.mem_of_find?_eq_some hfound)
          refine ⟨es ++ [.free r.1], h.snoc ?_ ?_⟩
          · intro hnone
            simp [hlookup] at hnone
          · simp [system, step, allocCallback, htype, hfound, hlookup]

theorem run_allocCallbacks {s₀ : State} {es : List Event} (h : Run system s₀ es s)
    (hkeys : UniqueKeys s) :
    ∃ es', Run system s₀ es' (events.foldl (allocCallback config) s) := by
  induction events generalizing s es with
  | nil => exact ⟨es, h⟩
  | cons event events ih =>
      rcases run_allocCallback h hkeys with ⟨es', h'⟩
      exact ih h' hkeys.allocCallback

end Callback

end Lru
end Shambles
