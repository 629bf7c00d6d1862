import Shambles.Plugins.Counters
import Shambles.Plugins.Front
import Shambles.StaticFractional.Agreement

/-!
# Samples — the log of the static-fractional plugin

The logging build starts a thread that reads samples and logs, for each of them, whether its chunk
is marked as fast.  Nothing is ever moved, so the log should be a matter of arithmetic: which block
an address is attributed to, which fraction that block was split by, and on which side of the split
the address is.  `Ideal` says so, with neither tree nor chunks nor marks.  Attributed means found in
the region map (`Seen`): a block may have bytes that are not.

Memory that is released keeps its binding, and a later block may lie over it.  A mark still tells how
its memory is bound as long as no new block overlaps a block that is tracked, and this is asked of
the runs (`ReportOk`).  The allocator alone does not give it: the release of a block that starts on a
slot is missed, and the block stays tracked when its memory is handed out again.
-/

namespace Shambles
namespace StaticFractional

open AssocList Jemalloc Plugins Structures

/-! ## The plugin with its thread -/

/-- `handleSample` -/
def handleSample {g : Geometry} (s : LoggingState g) (addr : Nat) : LoggingState g :=
  match getChunkInfoNU s.tree addr with
  | some (p, i) =>
      if s.privData p i = 0 then
        s.emit [.logSample addr ⟨true, false⟩]
      else
        s.emit [.logSample addr ⟨true, true⟩]
  | none => s.emit [.logSample addr ⟨false, false⟩]

section Process

variable (P : Settings) {c : Setup}

def report (s : LoggingState c.geometry) : Report → Option (LoggingState c.geometry)
  | .callback event output chunksPtr => bindAllocLogging P s ⟨event, output, chunksPtr⟩
  | .sample addr => some (handleSample s addr)

/-- The counter of large allocations stays an `int`; a large block lies in the window and overlaps no
region that is still tracked, be it live or one whose release was missed; `plugin_malloc` returns a
new address; addresses that are released or sampled lie in the window. -/
def ReportOk (s : LoggingState c.geometry) : Report → Prop
  | .callback event output _ =>
      match event.type with
      | .alloc => P.sizeThresshold ≤ event.size →
          s.current < 2 ^ 31 ∧
          s.tree.regions.lookup output = none ∧
          (c.window * 2 ^ 39 ≤ event.outPtr ∧
            event.outPtr + event.size ≤ (c.window + 1) * 2 ^ 39) ∧
          ∀ r ∈ s.tree.regions, r.2.start + r.2.size ≤ event.outPtr ∨
            event.outPtr + event.size ≤ r.2.start
      | .realloc => True
      | .free => c.InWindow event.inPtr
  | .sample addr => c.InWindow addr

instance (s : LoggingState c.geometry) : (r : Report) → Decidable (ReportOk P s r)
  | .callback ⟨.alloc, _, _, _⟩ _ _ => inferInstanceAs (Decidable (_ → _))
  | .callback ⟨.realloc, _, _, _⟩ _ _ => isTrue trivial
  | .callback ⟨.free, inPtr, _, _⟩ _ _ => inferInstanceAs (Decidable (c.InWindow inPtr))
  | .sample addr => inferInstanceAs (Decidable (c.InWindow addr))

def process (c : Setup) : System (LoggingState c.geometry) Report :=
  { enabled := ReportOk P
    step := report P }

instance (s : LoggingState c.geometry) (r : Report) : Decidable ((process P c).enabled s r) :=
  inferInstanceAs (Decidable (ReportOk P s r))

end Process

/-- The samples that were logged. -/
def sampleLog (trace : List Effect) : List (Nat × SampleFlags) :=
  trace.filterMap fun
    | .logSample addr flags => some (addr, flags)
    | _ => none

theorem sampleLog_append (trace es : List Effect) :
    sampleLog (trace ++ es) = sampleLog trace ++ sampleLog es := by
  simp [sampleLog]

@[simp] theorem sampleLog_bindAs (fast : Bool) (chunk : ShamblesChunk) :
    sampleLog (bindAs fast chunk) = [] := by
  cases fast <;> rfl

/-! ## What should be logged -/

/-- Whether the byte at `offset` of a block of this size belongs on the fast memory. -/
def onFast (P : Settings) (size f offset : Nat) : Bool :=
  if f = 0 then P.invert
  else if 2 ^ FRACTION_SHIFT ≤ f then !P.invert
  else if offset < fastSize size f then !P.invert
  else P.invert

structure Ideal where
  /-- How many large blocks there have been. -/
  count : Nat
  /-- The tracked blocks, each with its fraction. -/
  blocks : List (Allocation × Nat)
  samples : List (Nat × SampleFlags)
  deriving DecidableEq, Repr

namespace Ideal

variable (P : Settings) (c : Setup)

def empty : Ideal :=
  ⟨0, [], []⟩

/-- The block an address is attributed to. -/
def find (I : Ideal) (addr : Nat) : Option (Allocation × Nat) :=
  I.blocks.find? fun b => Seen c.geometry (I.blocks.map Prod.fst) addr b.1

def flags (I : Ideal) (addr : Nat) : SampleFlags :=
  match I.find c addr with
  | some b => ⟨true, onFast P b.1.size b.2 (addr - b.1.start)⟩
  | none => ⟨false, false⟩

def alloc (I : Ideal) (addr size : Nat) : Ideal :=
  { I with
    count := I.count + 1
    blocks := (⟨addr, size⟩, P.fractions[I.count]?.getD 0) :: I.blocks }

def free (I : Ideal) (addr : Nat) : Ideal :=
  match I.find c addr with
  | some b => { I with blocks := I.blocks.filter fun b' => b'.1 ≠ b.1 }
  | none => I

def step (I : Ideal) : Report → Ideal
  | .callback event _ _ =>
      match event.type with
      | .alloc => if P.sizeThresshold ≤ event.size then I.alloc P event.outPtr event.size else I
      | .realloc => I
      | .free => I.free c event.inPtr
  | .sample addr => { I with samples := I.samples ++ [(addr, I.flags P c addr)] }

def after (rs : List Report) : Ideal :=
  rs.foldl (step P c) empty

theorem after_snoc (rs : List Report) (r : Report) :
    after P c (rs ++ [r]) = (after P c rs).step P c r := by
  simp [after]

end Ideal

/-! ## A placement, byte by byte -/

/-- The effects of a placement decide the bytes of its block, and no others. -/
theorem foldl_rebind_plan (P : Settings) {out size f a : Nat} {es : List Effect}
    (hes : bindings es = layOut out (plan P size f)) (hend : out + size < 2 ^ 64)
    (b : Option Policy) :
    es.foldl (rebind a) b =
      if out ≤ a ∧ a < out + size then some (tier (onFast P size f (a - out))) else b := by
  rw [foldl_rebind_eq, hes]
  by_cases hzero : f = 0
  · simp only [plan, onFast, hzero, if_true, layOut, List.foldl_cons, List.foldl_nil]
    rfl
  · by_cases hone : 2 ^ FRACTION_SHIFT ≤ f
    · simp only [plan, onFast, hzero, hone, if_true, if_false, layOut, List.foldl_cons,
        List.foldl_nil]
      rfl
    · have hle : fastSize size f ≤ size := fastSize_le (not_le.1 hone)
      have hwrap : wrap64 (out + fastSize size f) = out + fastSize size f :=
        wrap64_of_lt (by omega)
      have hsub : sub64 size (fastSize size f) = size - fastSize size f :=
        sub64_of_le hle (by omega)
      simp only [plan, onFast, hzero, hone, if_false, layOut, hwrap, hsub, List.foldl_cons,
        List.foldl_nil]
      have hfirst : (⟨out, fastSize size f⟩ : ShamblesChunk).Covers a ↔
          out ≤ a ∧ a < out + fastSize size f := Iff.rfl
      have hsecond : (⟨out + fastSize size f, size - fastSize size f⟩ : ShamblesChunk).Covers a ↔
          out + fastSize size f ≤ a ∧ a < out + fastSize size f + (size - fastSize size f) :=
        Iff.rfl
      by_cases hin : out ≤ a ∧ a < out + size
      · rw [if_pos hin]
        by_cases hfront : a - out < fastSize size f
        · rw [if_neg (mt hsecond.1 (by omega)), if_pos (hfirst.2 (by omega)), if_pos hfront]
        · rw [if_pos (hsecond.2 (by omega)), if_neg hfront]
      · rw [if_neg hin, if_neg (mt hsecond.1 (by omega)), if_neg (mt hfirst.1 (by omega))]

theorem tier_eq_fastmask_iff (fast : Bool) : tier fast = .fastmask ↔ fast = true := by
  cases fast <;> decide

/-- The chunks of the region at `p` are marked, and its bytes bound, by the fraction `f`. -/
def SplitBy (P : Settings) {g : Geometry} (s : LoggingState g) (p : RegionPtr)
    (region : ShamblesRegion) (f : Nat) : Prop :=
  ∀ a, region.start ≤ a → a < region.start + region.size →
    (s.privData p (chunkIndexNU a region.chunks) ≠ 0 ↔
      onFast P region.size f (a - region.start) = true) ∧
    bindingAt s.trace.flatten a = some (tier (onFast P region.size f (a - region.start)))

theorem SplitBy.frame {P : Settings} {g : Geometry} {s s' : LoggingState g} {p : RegionPtr}
    {region : ShamblesRegion} {f : Nat} (h : SplitBy P s p region f)
    (hpriv : s'.privData p = s.privData p)
    (hbinding : ∀ a, region.start ≤ a → a < region.start + region.size →
      bindingAt s'.trace.flatten a = bindingAt s.trace.flatten a) : SplitBy P s' p region f := by
  intro a hle hlt
  rw [hpriv, hbinding a hle hlt]
  exact h a hle hlt

/-- A new region. -/
theorem Placed.splitBy {P : Settings} {g : Geometry} {s s' : LoggingState g} {call : Call} {f : Nat}
    (h : Placed s call (plan P call.event.size f) s')
    (hend : call.event.outPtr + call.event.size < 2 ^ 64) {region : ShamblesRegion}
    (hregion : region = ⟨call.event.outPtr, chunkTableOf call.event.outPtr
      ((plan P call.event.size f).map Prod.fst), call.chunksPtr⟩) :
    SplitBy P s' call.output region f := by
  rcases h.trace with ⟨es, htrace, hes⟩
  have hsum := plan_size P (show call.event.size < 2 ^ 64 by omega) f
  have hstart : region.start = call.event.outPtr := by rw [hregion]
  have hsize : region.size = call.event.size := by
    rw [hregion]
    exact (chunkTableOf_size _ _).trans hsum
  have hchunks : region.chunks = chunkTableOf call.event.outPtr
      ((plan P call.event.size f).map Prod.fst) := by rw [hregion]
  intro a hle hlt
  rw [hstart] at hle hlt ⊢
  rw [hsize] at hlt ⊢
  have hin : call.event.outPtr ≤ a ∧ a < call.event.outPtr + call.event.size := ⟨hle, hlt⟩
  have hlast : ∀ b, es.foldl (rebind a) b =
      some (tier (onFast P call.event.size f (a - call.event.outPtr))) := by
    intro b
    rw [foldl_rebind_plan P hes hend, if_pos hin]
  rcases h.marked_iff hes (plan_tiles P hend f) hsum hle hlt with ⟨policy, hpolicy, hmark⟩
  obtain rfl := Option.some.inj (hpolicy.symm.trans (hlast none))
  refine ⟨?_, ?_⟩
  · rw [hchunks]
    exact hmark.trans (tier_eq_fastmask_iff _)
  · rw [htrace, List.flatten_append, bindingAt_append]
    simpa using hlast _

theorem sampleLog_placeLogging (P : Settings) {g : Geometry} (s : LoggingState g) (call : Call)
    (f : Nat) :
    sampleLog (placeLogging P s call f).trace.flatten = sampleLog s.trace.flatten := by
  rw [placeLogging_eq]
  split_ifs
  all_goals
    simp [wholeLogging, splitLogging, LoggingState.emit, LoggingState.setPrivData,
      LoggingState.addRegionChunks, sampleLog_append]

/-! ## The plugin follows -/

/-- The plugin has logged what it should, and tracks the blocks as they were split. -/
structure Coupled (P : Settings) {c : Setup} (s : LoggingState c.geometry) (I : Ideal) : Prop where
  mapped : Mapped c.geometry c.window s.tree
  count : s.current = I.count
  samples : sampleLog s.trace.flatten = I.samples
  split : ∃ f : RegionPtr → Nat,
    I.blocks = s.tree.regions.map (fun r => (blockOf r.2, f r.1)) ∧
      ∀ r ∈ s.tree.regions, SplitBy P s r.1 r.2 (f r.1)

namespace Coupled

variable {P : Settings} {c : Setup} {s s' : LoggingState c.geometry} {I : Ideal}

theorem init : Coupled P (LoggingState.init c.geometry) Ideal.empty :=
  ⟨Mapped.init, rfl, rfl, fun _ => 0, rfl, by simp [LoggingState.init, TreeState.init]⟩

/-- The search for a block goes like the lookup in the region map. -/
theorem find_eq (h : Coupled P s I) {f : RegionPtr → Nat}
    (hblocks : I.blocks = s.tree.regions.map fun r => (blockOf r.2, f r.1)) {a : Nat}
    (ha : c.InWindow a) :
    I.find c a = (getRegion c.geometry s.tree.root a).bind fun p =>
      (s.tree.regions.lookup p).map fun region => (blockOf region, f p) := by
  have hfst : I.blocks.map Prod.fst = blocksOf s.tree := by
    rw [hblocks, List.map_map]
    rfl
  have hfind := h.mapped.find_seen c.regular c.root_single c.window_lt ha
  have hmap := congrArg (Option.map fun r => (blockOf r.2, f r.1)) hfind
  rw [Option.map_bind] at hmap
  rw [Ideal.find, hfst, hblocks, List.find?_map]
  refine hmap.trans (congrArg _ (funext fun p => ?_))
  simp [Function.comp_def]

/-- A call that binds nothing and tracks nothing. -/
theorem emit_nil (h : Coupled P s I) : Coupled P (s.emit []) I := by
  have htrace : (s.emit []).trace.flatten = s.trace.flatten := by simp [LoggingState.emit]
  rcases h.split with ⟨f, hblocks, hsplit⟩
  refine ⟨h.mapped, h.count, by rw [htrace]; exact h.samples, f, hblocks, ?_⟩
  intro r hr
  exact (hsplit r hr).frame rfl fun a _ _ => by rw [htrace]

theorem alloc (h : Coupled P s I) (hthr : P.sizeThresshold = c.sizeThresshold) (call : Call)
    (hsize : P.sizeThresshold ≤ call.event.size) (hcount : s.current < 2 ^ 31)
    (hfresh : s.tree.regions.lookup call.output = none)
    (hlo : c.window * 2 ^ 39 ≤ call.event.outPtr)
    (hhi : call.event.outPtr + call.event.size ≤ (c.window + 1) * 2 ^ 39)
    (hapart : ∀ r ∈ s.tree.regions, r.2.start + r.2.size ≤ call.event.outPtr ∨
      call.event.outPtr + call.event.size ≤ r.2.start) {f : Nat}
    (hf : P.fractionAt (toInt s.current) = some f) :
    Coupled P (placeLogging P { s with current := s.current + 1 } call f)
      (I.alloc P call.event.outPtr call.event.size) := by
  have hend : call.event.outPtr + call.event.size < 2 ^ 64 := lt_of_le_of_lt hhi c.window_lt
  have hsum := plan_size P (show call.event.size < 2 ^ 64 by omega) f
  have hplaced := placeLogging_spec P { s with current := s.current + 1 } call f
  have hlog := sampleLog_placeLogging P { s with current := s.current + 1 } call f
  generalize placeLogging P { s with current := s.current + 1 } call f = s' at hplaced hlog
  rcases hplaced.trace with ⟨es, htrace, hes⟩
  rcases h.split with ⟨F, hblocks, hsplit⟩
  have hregions := hplaced.regions_eq
  have hold : ∀ r ∈ s.tree.regions, r.1 ≠ call.output := by
    intro r hr hkey
    have hlookup := lookup_of_mem h.mapped.tracks.keys (p := r.1) (v := r.2) hr
    rw [hkey, hfresh] at hlookup
    cases hlookup
  refine ⟨?_, ?_, hlog.trans h.samples, Function.update F call.output f, ?_, ?_⟩
  · have hadd := enabled_plan (t := s.tree) hsize hfresh hend f
    have hok : StepOk c.window s.tree (.addRegionChunks call.output call.chunksPtr
        call.event.outPtr call.event.size ((plan P call.event.size f).map Prod.fst)) := by
      intro range hrange
      obtain rfl := Option.mem_some.1 hrange
      exact ⟨hlo, hhi, hapart⟩
    rw [hplaced.tree]
    exact h.mapped.step c.regular c.root_single P.thresshold_pos (hthr ▸ c.slot_le) hadd hok rfl
  · exact hplaced.current.trans (congrArg (· + 1) h.count)
  · have hfraction : P.fractions[I.count]?.getD 0 = f := by
      rw [← h.count]
      exact Option.some.inj ((fractionAt_of_lt P hcount).symm.trans hf)
    rw [hregions, List.map_cons, Ideal.alloc, hblocks, hfraction]
    refine congrArg₂ List.cons ?_ (List.map_congr_left fun r hr => ?_)
    · simp [blockOf, ShamblesRegion.size, chunkTableOf_size, hsum]
    · rw [Function.update_of_ne (hold r hr)]
  · intro r hr
    rw [hregions] at hr
    rcases List.mem_cons.1 hr with rfl | hr
    · rw [Function.update_self]
      exact hplaced.splitBy hend rfl
    · rw [Function.update_of_ne (hold r hr)]
      refine (hsplit r hr).frame (hplaced.others _ (hold r hr)) ?_
      intro a hle hlt
      -- the new block reaches no byte of a tracked one
      have hout : ¬ (call.event.outPtr ≤ a ∧ a < call.event.outPtr + call.event.size) := by
        rcases hapart r hr with hbefore | hbehind
        · omega
        · omega
      rw [htrace, List.flatten_append, bindingAt_append]
      simpa using (foldl_rebind_plan P hes hend _).trans (if_neg hout)

/-- A region goes; what is left of the plugin stays as it is. -/
theorem delete (h : Coupled P s I) {p : RegionPtr} {region : ShamblesRegion}
    {root : Root c.geometry} (hregion : s.tree.regions.lookup p = some region)
    (hroot : deleteRegion c.geometry s.tree.root region = some root)
    (hthr : P.sizeThresshold = c.sizeThresshold) :
    Coupled P { s with tree := ⟨root, s.tree.regions.filter fun r => r.1 ≠ p⟩ }
      { I with blocks := I.blocks.filter fun b => b.1 ≠ blockOf region } := by
  rcases h.split with ⟨F, hblocks, hsplit⟩
  refine ⟨?_, h.count, h.samples, F, ?_, ?_⟩
  · rcases step_release P.sizeThresshold hregion hroot with ⟨hlive, hstep⟩
    have hok : StepOk c.window s.tree (.deleteRegion p) := by
      intro range hrange
      cases hrange
    exact h.mapped.step c.regular c.root_single P.thresshold_pos (hthr ▸ c.slot_le) hlive hok hstep
  · rw [hblocks, List.filter_map]
    refine congrArg _ (List.filter_congr ?_)
    rintro ⟨q, region'⟩ hlive'
    have hsame := h.mapped.blockOf_eq_iff (mem_of_lookup hregion) hlive'
    simp [hsame]
  · intro r hr
    exact (hsplit r (List.mem_of_mem_filter hr)).frame rfl fun _ _ _ => rfl

theorem free (h : Coupled P s I) (hthr : P.sizeThresshold = c.sizeThresshold) {addr : Nat}
    (ha : c.InWindow addr) (hs' : releaseLogging s addr = some s') :
    Coupled P s' (I.free c addr) := by
  rcases h.split with ⟨F, hblocks, -⟩
  have hfind := h.find_eq hblocks ha
  unfold releaseLogging at hs'
  cases hget : getRegion c.geometry s.tree.root addr with
  | none =>
      simp only [hget] at hs'
      obtain rfl := Option.some.inj hs'
      rw [hget, Option.bind_none] at hfind
      simp only [Ideal.free, hfind]
      exact h
  | some p =>
      rcases h.mapped.getRegion_sound c.regular c.root_single ha ha.lt hget with
        ⟨region, hregion, -, -⟩
      simp only [hget, hregion] at hs'
      rcases Option.map_eq_some_iff.1 hs' with ⟨root, hroot, rfl⟩
      rw [hget, Option.bind_some, hregion, Option.map_some] at hfind
      simp only [Ideal.free, hfind]
      exact h.delete hregion hroot hthr

/-- What `handleSample` logs. -/
theorem handleSample_eq (h : Coupled P s I) {addr : Nat} (ha : c.InWindow addr) :
    handleSample s addr = s.emit [.logSample addr (I.flags P c addr)] := by
  rcases h.split with ⟨F, hblocks, hsplit⟩
  have hfind := h.find_eq hblocks ha
  cases hget : getRegion c.geometry s.tree.root addr with
  | none =>
      rw [hget, Option.bind_none] at hfind
      simp [handleSample, getChunkInfoNU, hget, Ideal.flags, hfind]
  | some p =>
      rcases h.mapped.getRegion_sound c.regular c.root_single ha ha.lt hget with
        ⟨region, hregion, hle, hlt⟩
      rw [hget, Option.bind_some, hregion, Option.map_some] at hfind
      have hmark := (hsplit _ (mem_of_lookup hregion) addr hle hlt).1
      by_cases hzero : s.privData p (chunkIndexNU addr region.chunks) = 0
      · have hslow : onFast P region.size (F p) (addr - region.start) = false := by
          simpa using fun hfast => hmark.2 hfast hzero
        simp [handleSample, getChunkInfoNU, hget, hregion, hzero, Ideal.flags, hfind, blockOf,
          hslow]
      · have hfast := hmark.1 hzero
        simp [handleSample, getChunkInfoNU, hget, hregion, hzero, Ideal.flags, hfind, blockOf,
          hfast]

theorem sample (h : Coupled P s I) {addr : Nat} (ha : c.InWindow addr) :
    Coupled P (handleSample s addr)
      { I with samples := I.samples ++ [(addr, I.flags P c addr)] } := by
  rw [h.handleSample_eq ha]
  rcases h.split with ⟨F, hblocks, hsplit⟩
  have htrace : (s.emit [.logSample addr (I.flags P c addr)]).trace.flatten =
      s.trace.flatten ++ [.logSample addr (I.flags P c addr)] := by
    simp [LoggingState.emit]
  refine ⟨h.mapped, h.count, ?_, F, hblocks, ?_⟩
  · rw [htrace, sampleLog_append, h.samples]
    rfl
  · intro r hr
    refine (hsplit r hr).frame rfl fun a _ _ => ?_
    rw [htrace, bindingAt_logSample]

/-- Every report does to the plugin what it does to the arithmetic. -/
theorem step (h : Coupled P s I) (hthr : P.sizeThresshold = c.sizeThresshold) {r : Report}
    (hen : ReportOk P s r) (hs' : report P s r = some s') : Coupled P s' (I.step P c r) := by
  cases r with
  | callback event output chunksPtr =>
      cases htype : event.type with
      | alloc =>
          by_cases hsize : P.sizeThresshold ≤ event.size
          · have hok := hen
            simp only [ReportOk, htype] at hok
            rcases hok hsize with ⟨hcount, hfresh, ⟨hlo, hhi⟩, hapart⟩
            simp only [report, bindAllocLogging, htype, hsize, if_true] at hs'
            rcases Option.map_eq_some_iff.1 hs' with ⟨f, hf, rfl⟩
            simp only [Ideal.step, htype, hsize, if_true]
            exact h.alloc hthr ⟨event, output, chunksPtr⟩ hsize hcount hfresh hlo hhi hapart hf
          · simp only [report, bindAllocLogging, htype, hsize, if_false] at hs'
            obtain rfl := Option.some.inj hs'
            simp only [Ideal.step, htype, hsize, if_false]
            exact h.emit_nil
      | realloc =>
          simp only [report, bindAllocLogging, htype] at hs'
          obtain rfl := Option.some.inj hs'
          simp only [Ideal.step, htype]
          exact h.emit_nil
      | free =>
          have ha : c.InWindow event.inPtr := by simpa [ReportOk, htype] using hen
          simp only [report, bindAllocLogging, htype] at hs'
          rcases Option.map_eq_some_iff.1 hs' with ⟨s₁, hs₁, rfl⟩
          simp only [Ideal.step, htype]
          exact (h.free hthr ha hs₁).emit_nil
  | sample addr =>
      obtain rfl := Option.some.inj hs'
      exact h.sample hen

theorem run (hthr : P.sizeThresshold = c.sizeThresshold) {rs : List Report}
    (hrun : Run (process P c) (LoggingState.init c.geometry) rs s) :
    Coupled P s (Ideal.after P c rs) := by
  refine Run.invariant (P := fun rs s => Coupled P s (Ideal.after P c rs)) init ?_ hrun
  intro rs s r s' h hen hst
  rw [Ideal.after_snoc]
  exact h.step hthr hen hst

/-- The bytes of the tracked blocks. -/
theorem placed (h : Coupled P s I) : ∀ b ∈ I.blocks, ∀ a, b.1.start ≤ a →
    a < b.1.start + b.1.size →
      bindingAt s.trace.flatten a = some (tier (onFast P b.1.size b.2 (a - b.1.start))) := by
  rcases h.split with ⟨F, hblocks, hsplit⟩
  intro b hb a hle hlt
  rw [hblocks] at hb
  rcases List.mem_map.1 hb with ⟨r, hr, rfl⟩
  exact (hsplit r hr a hle hlt).2

/-- No report gets stuck. -/
theorem defined (h : Coupled P s I) {r : Report} (hen : ReportOk P s r) :
    ∃ s', report P s r = some s' := by
  cases r with
  | callback event output chunksPtr =>
      cases htype : event.type with
      | alloc =>
          by_cases hsize : P.sizeThresshold ≤ event.size
          · simp only [ReportOk, htype] at hen
            have hentry := fractionAt_of_lt P (hen hsize).1
            simp [report, bindAllocLogging, htype, hsize, hentry]
          · simp [report, bindAllocLogging, htype, hsize]
      | realloc => simp [report, bindAllocLogging, htype]
      | free =>
          have ha : c.InWindow event.inPtr := by simpa [ReportOk, htype] using hen
          cases hget : getRegion c.geometry s.tree.root event.inPtr with
          | none => simp [report, bindAllocLogging, htype, releaseLogging, hget]
          | some p =>
              rcases h.mapped.getRegion_sound c.regular c.root_single ha ha.lt hget with
                ⟨region, hregion, -, -⟩
              rcases h.mapped.tracks.delete Matches.maintained hregion with ⟨root, hroot, -⟩
              simp [report, bindAllocLogging, htype, releaseLogging, hget, hregion, hroot]
  | sample addr => exact ⟨_, rfl⟩

end Coupled

/-! ## The log -/

/-- What the log and the counters say about the placement of the program's memory. -/
structure TellsPlacement (P : Settings) (c : Setup) (s : LoggingState c.geometry) (I : Ideal) :
    Prop where
  logged : sampleLog s.trace.flatten = I.samples
  /-- Every byte of a tracked block is bound as its offset and the fraction of the block say. -/
  placed : ∀ b ∈ I.blocks, ∀ a, b.1.start ≤ a → a < b.1.start + b.1.size →
    bindingAt s.trace.flatten a = some (tier (onFast P b.1.size b.2 (a - b.1.start)))
  /-- The next sample that is attributed to a block is logged as a hit exactly if its memory is bound
  to the fast nodes. -/
  truthful : ∀ addr, c.InWindow addr → (I.flags P c addr).tracked = true →
    ((I.flags P c addr).hit = true ↔ bindingAt s.trace.flatten addr = some .fastmask)
  counted : ∀ calls, Interleaved s.trace.flatten calls →
    (ShamblesCounters.after calls).hits =
        wrap64 (I.samples.countP fun x => x.2.tracked && x.2.hit) ∧
      (ShamblesCounters.after calls).misses =
        wrap64 (I.samples.countP fun x => x.2.tracked && !x.2.hit) ∧
      (ShamblesCounters.after calls).small = wrap64 (I.samples.countP fun x => !x.2.tracked)
  defined : ∀ r, ReportOk P s r → ∃ s', report P s r = some s'

/-- A kind of sample is counted in the hook calls as often as it is logged. -/
theorem countP_sampleLog {trace : List Effect} {calls : List HookCall}
    (h : Interleaved trace calls) {p : HookCall → Bool} {q : SampleFlags → Bool}
    (hp : ∀ flags, p (.sample flags) = q flags) (halloc : ∀ type, p (.alloc type) = false)
    (hmigration : ∀ dir size, p (.migration dir size) = false) :
    calls.countP p = (sampleLog trace).countP fun x => q x.2 := by
  rw [countP_of_interleaved h halloc, hooks, sampleLog, List.countP_filterMap,
    List.countP_filterMap]
  refine List.countP_congr ?_
  intro e _
  cases e with
  | mbind start size policy => simp [hookCall]
  | logMigration dir addr size => simp [hookCall, hmigration]
  | logSample addr flags => simp [hookCall, hp]

theorem log_tells_placement {P : Settings} {c : Setup}
    (hthr : P.sizeThresshold = c.sizeThresshold) {rs : List Report}
    {s : LoggingState c.geometry}
    (hrun : Run (process P c) (LoggingState.init c.geometry) rs s) :
    TellsPlacement P c s (Ideal.after P c rs) := by
  have h := Coupled.run hthr hrun
  have hplaced := h.placed
  refine ⟨h.samples, hplaced, ?_, ?_, fun r hen => h.defined hen⟩
  · intro addr ha htracked
    cases hfind : (Ideal.after P c rs).find c addr with
    | none => simp [Ideal.flags, hfind] at htracked
    | some b =>
        have hseen := List.find?_some hfind
        have hin := (of_decide_eq_true hseen).1
        rw [hplaced b (List.mem_of_find?_eq_some hfind) addr hin.1 hin.2, Ideal.flags, hfind,
          Option.some.injEq, tier_eq_fastmask_iff]
  · intro calls hcalls
    rcases after_eq calls with ⟨hhits, hmisses, hsmall, -⟩
    rw [hhits, hmisses, hsmall, ← h.samples]
    refine ⟨congrArg wrap64 ?_, congrArg wrap64 ?_, congrArg wrap64 ?_⟩
    · exact countP_sampleLog hcalls (fun _ => rfl) (fun _ => rfl) fun _ _ => rfl
    · exact countP_sampleLog hcalls (fun _ => rfl) (fun _ => rfl) fun _ _ => rfl
    · exact countP_sampleLog hcalls (fun _ => rfl) (fun _ => rfl) fun _ _ => rfl

/-- Half of a block is fast.  A byte of either half is sampled, and one of them again when the block
has been released. -/
theorem log_tells_placement_half :
    ∃ s, Run (process ⟨0x10000, [2 ^ 19], false, by decide, by decide⟩ Setup.halfSlots)
        (LoggingState.init _)
        [.callback ⟨.alloc, 0, 0x18000, 0x20000⟩ 1 0x900, .sample 0x19000, .sample 0x29000,
          .callback ⟨.free, 0x18000, 0, 0⟩ 0 0, .sample 0x19000] s ∧
      sampleLog s.trace.flatten =
        [(0x19000, ⟨true, true⟩), (0x29000, ⟨true, false⟩), (0x19000, ⟨false, false⟩)] ∧
      TellsPlacement ⟨0x10000, [2 ^ 19], false, by decide, by decide⟩ Setup.halfSlots s
        (Ideal.after ⟨0x10000, [2 ^ 19], false, by decide, by decide⟩ Setup.halfSlots
          [.callback ⟨.alloc, 0, 0x18000, 0x20000⟩ 1 0x900, .sample 0x19000, .sample 0x29000,
            .callback ⟨.free, 0x18000, 0, 0⟩ 0 0, .sample 0x19000]) := by
  rcases Run.of_exec_any (process ⟨0x10000, [2 ^ 19], false, by decide, by decide⟩ Setup.halfSlots)
    (LoggingState.init _)
    [.callback ⟨.alloc, 0, 0x18000, 0x20000⟩ 1 0x900, .sample 0x19000, .sample 0x29000,
      .callback ⟨.free, 0x18000, 0, 0⟩ 0 0, .sample 0x19000]
    (fun s => sampleLog s.trace.flatten =
      [(0x19000, ⟨true, true⟩), (0x29000, ⟨true, false⟩), (0x19000, ⟨false, false⟩)])
    (by decide +kernel) with ⟨s, hrun, hlog⟩
  exact ⟨s, hrun, hlog, log_tells_placement rfl hrun⟩

end StaticFractional
end Shambles
