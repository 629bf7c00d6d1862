import Shambles.Lib.Strtol
import Shambles.Plugins.Nodes

/-!
# Config — the configuration read from the environment

`ShamblesPluginConfigInit` of `config.c`.  The environment is what `getenv` answers, the machine is
what `numa_max_node` answers together with the nodes that exist.  A shift count of 64 is undefined
in C; it is taken modulo 64 here, as the machine does.

`usable_iff` says which environments give a configuration the plugins can work with.
-/

namespace Shambles
namespace Plugins

open Structures Strtol

/-- The answers of `getenv`. -/
abbrev Environment : Type :=
  String → Option String

/-- The memory nodes of the machine; `numa_max_node` is the highest of them. -/
structure Machine where
  nodes : List Nat
  numaMaxNode : Nat
  numaMaxNode_mem : numaMaxNode ∈ nodes
  le_numaMaxNode : ∀ n ∈ nodes, n ≤ numaMaxNode

structure ShamblesPluginConfig where
  sizeThresshold : Nat
  chunkSize : Nat
  fastChunks : Nat
  maxnode : Nat
  fastmask : Nat
  slowmask : Nat
  deriving DecidableEq, Repr

/-- `strtol(getenv(name), NULL, 0)`, stored in an `unsigned long`. -/
def readULong (env : Environment) (name : String) : Option Nat :=
  (env name).map fun value => toULong (strtol value)

/-- `(size_t)(-1)` -/
def SIZE_T_MAX : Nat :=
  2 ^ 64 - 1

def compl64 (n : Nat) : Nat :=
  n ^^^ SIZE_T_MAX

/-- `1LU << k` -/
def oneShiftLeft (k : Nat) : Nat :=
  2 ^ (k % 64)

/-- `(1LU << (maxnode + 1)) - 1` -/
def nodeMask (maxnode : Nat) : Nat :=
  oneShiftLeft (maxnode + 1) - 1

/-! ## `ShamblesPluginConfigInit` -/

def readFastmask (env : Environment) (maxnode : Nat) : Nat :=
  match readULong env "SHAMBLES_FAST_NODEMASK" with
  | none => nodeMask maxnode
  | some mask => if mask = 0 then nodeMask maxnode else mask &&& nodeMask maxnode

def readSlowmask (env : Environment) (maxnode fastmask : Nat) : Nat :=
  match readULong env "SHAMBLES_SLOW_NODEMASK" with
  | none => 0
  -- Unlike for the fast mask, zero is a value like any other.
  | some mask => mask &&& (nodeMask maxnode &&& compl64 fastmask)

/-- A threshold that is not set or zero is 64 KiB. -/
def readSizeThresshold (env : Environment) (name : String) : Nat :=
  match readULong env name with
  | none => 0x10000
  | some size => if size = 0 then 0x10000 else size

def readChunkSize (env : Environment) : Nat :=
  match readULong env "SHAMBLES_CHUNK_SIZE" with
  | none =>
      -- "not defined, try to get it" from the size and the number of chunks
      match readULong env "SHAMBLES_FAST_MEM_SIZE" with
      | none => SIZE_T_MAX
      | some size =>
          if size = 0 then
            SIZE_T_MAX
          else
            match readULong env "SHAMBLES_FAST_MEM_CHUNKS" with
            | none => SIZE_T_MAX
            -- The quotient is 0 if there are more chunks than bytes.
            | some chunks => if chunks = 0 then SIZE_T_MAX else size / chunks
  | some size => if size = 0 then SIZE_T_MAX else size

def readFastChunks (env : Environment) (chunkSize : Nat) : Nat :=
  match readULong env "SHAMBLES_FAST_MEM_CHUNKS" with
  | none =>
      -- "not defined, try to get it" from the size and the chunk size
      match readULong env "SHAMBLES_FAST_MEM_SIZE" with
      | none => SIZE_T_MAX
      | some size => if size = 0 then SIZE_T_MAX else size / chunkSize
  | some chunks => if chunks = 0 then SIZE_T_MAX else chunks

/-- `none` is the return value `-EOVERFLOW`. -/
def shamblesPluginConfigInit (m : Machine) (env : Environment) : Option ShamblesPluginConfig :=
  let maxnode := m.numaMaxNode + 2
  if 64 ≤ maxnode then
    none
  else
    let fastmask := readFastmask env maxnode
    let chunkSize := readChunkSize env
    some
      { sizeThresshold := readSizeThresshold env "SHAMBLES_SIZE_THRESHOLD"
        chunkSize := chunkSize
        fastChunks := readFastChunks env chunkSize
        maxnode := maxnode
        fastmask := fastmask
        slowmask := readSlowmask env maxnode fastmask }

theorem readSizeThresshold_pos (env : Environment) (name : String) :
    0 < readSizeThresshold env name := by
  unfold readSizeThresshold
  split
  · decide
  · split
    · decide
    · omega

section Init

variable {m : Machine} {env : Environment} {config : ShamblesPluginConfig}

/-- What an accepted configuration consists of. -/
theorem configInit_eq (h : shamblesPluginConfigInit m env = some config) :
    m.numaMaxNode + 2 < 64 ∧
      config =
        { sizeThresshold := readSizeThresshold env "SHAMBLES_SIZE_THRESHOLD"
          chunkSize := readChunkSize env
          fastChunks := readFastChunks env (readChunkSize env)
          maxnode := m.numaMaxNode + 2
          fastmask := readFastmask env (m.numaMaxNode + 2)
          slowmask := readSlowmask env (m.numaMaxNode + 2)
            (readFastmask env (m.numaMaxNode + 2)) } := by
  simp only [shamblesPluginConfigInit] at h
  split at h
  · cases h
  · rename_i hlt
    exact ⟨by omega, (Option.some.inj h).symm⟩

theorem thresshold_pos_of_config (h : shamblesPluginConfigInit m env = some config) :
    1 ≤ config.sizeThresshold := by
  rw [(configInit_eq h).2]
  exact readSizeThresshold_pos env _

end Init

/-! ## Usable configurations -/

/-- The variable is set to a positive value. -/
def Positive (env : Environment) (name : String) : Prop :=
  ∃ value, env name = some value ∧ 0 < strtol value

/-- What the plugins rely on. -/
structure Usable (m : Machine) (env : Environment) (config : ShamblesPluginConfig) : Prop where
  /-- `addRegion` and `getChunkInfo` divide by the chunk size. -/
  chunkSize : 1 ≤ config.chunkSize
  /-- What `lruInit` and `windowInit` store in `freeFastChunks`. -/
  freeFastChunks : toInt config.fastChunks ≠ 0
  shifts : config.maxnode + 1 < 64
  disjoint : config.fastmask &&& config.slowmask = 0
  fastNode : ∃ n ∈ m.nodes, config.fastmask.testBit n = true
  budget : ∀ value, env "SHAMBLES_FAST_MEM_SIZE" = some value → 0 < strtol value →
    Xor (Positive env "SHAMBLES_CHUNK_SIZE") (Positive env "SHAMBLES_FAST_MEM_CHUNKS") →
    ((config.chunkSize * config.fastChunks : Nat) : Int) ≤ strtol value

/-- A size that is not set or zero is unlimited. -/
def orMax : Option Nat → Nat
  | none => SIZE_T_MAX
  | some size => if size = 0 then SIZE_T_MAX else size

/-- The environments that give usable configurations. -/
structure Adequate (m : Machine) (env : Environment) : Prop where
  nodes : m.numaMaxNode ≤ 60
  /-- A node mask that is given names an existing node. -/
  fastNode : ∀ mask, readULong env "SHAMBLES_FAST_NODEMASK" = some mask → mask ≠ 0 →
    ∃ n ∈ m.nodes, mask.testBit n = true
  /-- A chunk size that has to be deduced does not become zero. -/
  chunkSize : readULong env "SHAMBLES_CHUNK_SIZE" = none →
    ∀ size, readULong env "SHAMBLES_FAST_MEM_SIZE" = some size → size ≠ 0 →
    ∀ chunks, readULong env "SHAMBLES_FAST_MEM_CHUNKS" = some chunks → chunks ≤ size
  /-- A chunk count that is given does not vanish in an `int`. -/
  chunks : ∀ chunks, readULong env "SHAMBLES_FAST_MEM_CHUNKS" = some chunks → chunks ≠ 0 →
    ¬ 2 ^ 32 ∣ chunks
  /-- Nor does one that has to be deduced. -/
  quotient : readULong env "SHAMBLES_FAST_MEM_CHUNKS" = none →
    ∀ size, readULong env "SHAMBLES_FAST_MEM_SIZE" = some size → size ≠ 0 →
    ¬ 2 ^ 32 ∣ size / orMax (readULong env "SHAMBLES_CHUNK_SIZE")
  /-- When the fast memory and one of the other two are given, the third is not set at all. -/
  unset : Positive env "SHAMBLES_FAST_MEM_SIZE" →
    (Positive env "SHAMBLES_CHUNK_SIZE" → ¬ Positive env "SHAMBLES_FAST_MEM_CHUNKS" →
      env "SHAMBLES_FAST_MEM_CHUNKS" = none) ∧
    (Positive env "SHAMBLES_FAST_MEM_CHUNKS" → ¬ Positive env "SHAMBLES_CHUNK_SIZE" →
      env "SHAMBLES_CHUNK_SIZE" = none)

section Clauses

variable {m : Machine} {env : Environment}

/-! ### Masks -/

theorem testBit_nodeMask {maxnode : Nat} (h : maxnode + 1 < 64) (n : Nat) :
    (nodeMask maxnode).testBit n = decide (n < maxnode + 1) := by
  rw [nodeMask, oneShiftLeft, Nat.mod_eq_of_lt h, Nat.testBit_two_pow_sub_one]

theorem nodeMask_lt (maxnode : Nat) : nodeMask maxnode < 2 ^ 64 := by
  have hpow : 2 ^ ((maxnode + 1) % 64) ≤ 2 ^ 64 :=
    Nat.pow_le_pow_right (by decide) (Nat.mod_lt _ (by decide)).le
  unfold nodeMask oneShiftLeft
  omega

theorem masks_disjoint (env : Environment) (maxnode fastmask : Nat) :
    fastmask &&& readSlowmask env maxnode fastmask = 0 := by
  unfold readSlowmask
  split
  · simp
  · apply Nat.eq_of_testBit_eq
    intro i
    -- Bits from 64 on are cut off by the node mask.
    have hcut : 64 ≤ i → (nodeMask maxnode).testBit i = false := fun hi =>
      Nat.testBit_lt_two_pow ((nodeMask_lt maxnode).trans_le (Nat.pow_le_pow_right (by decide) hi))
    by_cases hi : i < 64
    · have hmax : SIZE_T_MAX.testBit i = true := by
        rw [SIZE_T_MAX, Nat.testBit_two_pow_sub_one]
        exact decide_eq_true hi
      cases hbit : fastmask.testBit i with
      | true => simp [compl64, hbit, hmax]
      | false => simp [hbit]
    · simp [hcut (by omega)]

/-- The mask has a bit of an existing node: always by default, else if one was asked for. -/
theorem fastNode_iff (m : Machine) (env : Environment) (h : m.numaMaxNode ≤ 60) :
    (∃ n ∈ m.nodes, (readFastmask env (m.numaMaxNode + 2)).testBit n = true) ↔
      ∀ mask, readULong env "SHAMBLES_FAST_NODEMASK" = some mask → mask ≠ 0 →
        ∃ n ∈ m.nodes, mask.testBit n = true := by
  have hmask : ∀ n ∈ m.nodes, (nodeMask (m.numaMaxNode + 2)).testBit n = true := by
    intro n hn
    have hle := m.le_numaMaxNode n hn
    rw [testBit_nodeMask (by omega)]
    exact decide_eq_true (by omega)
  cases hread : readULong env "SHAMBLES_FAST_NODEMASK" with
  | none =>
      simp only [readFastmask, hread, reduceCtorEq, false_imp_iff, implies_true, iff_true]
      exact ⟨m.numaMaxNode, m.numaMaxNode_mem, hmask _ m.numaMaxNode_mem⟩
  | some mask =>
      by_cases hzero : mask = 0
      · simp only [readFastmask, hread, hzero, if_true, Option.some.injEq, forall_eq', ne_eq,
          not_true_eq_false, false_imp_iff, iff_true]
        exact ⟨m.numaMaxNode, m.numaMaxNode_mem, hmask _ m.numaMaxNode_mem⟩
      · simp only [readFastmask, hread, hzero, if_false, Option.some.injEq, forall_eq', ne_eq,
          not_false_eq_true, true_imp_iff, Nat.testBit_and, Bool.and_eq_true]
        constructor
        · rintro ⟨n, hn, hbit, _⟩
          exact ⟨n, hn, hbit⟩
        · rintro ⟨n, hn, hbit⟩
          exact ⟨n, hn, hbit, hmask n hn⟩

/-! ### Sizes -/

theorem chunkSize_pos_iff (env : Environment) :
    1 ≤ readChunkSize env ↔
      (readULong env "SHAMBLES_CHUNK_SIZE" = none →
        ∀ size, readULong env "SHAMBLES_FAST_MEM_SIZE" = some size → size ≠ 0 →
        ∀ chunks, readULong env "SHAMBLES_FAST_MEM_CHUNKS" = some chunks → chunks ≤ size) := by
  have hmax : 1 ≤ SIZE_T_MAX := by decide
  cases hchunk : readULong env "SHAMBLES_CHUNK_SIZE" with
  | some chunk =>
      by_cases hzero : chunk = 0
      · simpa [readChunkSize, hchunk, hzero] using hmax
      · simpa [readChunkSize, hchunk, hzero] using Nat.one_le_iff_ne_zero.2 hzero
  | none =>
      cases hsize : readULong env "SHAMBLES_FAST_MEM_SIZE" with
      | none => simpa [readChunkSize, hchunk, hsize] using hmax
      | some size =>
          by_cases hzero : size = 0
          · simpa [readChunkSize, hchunk, hsize, hzero] using hmax
          · cases hchunks : readULong env "SHAMBLES_FAST_MEM_CHUNKS" with
            | none => simpa [readChunkSize, hchunk, hsize, hzero, hchunks] using hmax
            | some chunks =>
                by_cases hnone : chunks = 0
                · simpa [readChunkSize, hchunk, hsize, hzero, hchunks, hnone] using hmax
                · -- The quotient is positive exactly if the divisor is not the larger one.
                  have hpos : 0 < chunks := Nat.pos_of_ne_zero hnone
                  simp [readChunkSize, hchunk, hsize, hzero, hchunks, hnone,
                    Nat.le_div_iff_mul_le hpos]

/-- The chunk size that divides the fast memory: no count is given, so none is deduced from one. -/
theorem readChunkSize_of_unset (h : readULong env "SHAMBLES_FAST_MEM_CHUNKS" = none) :
    readChunkSize env = orMax (readULong env "SHAMBLES_CHUNK_SIZE") := by
  unfold readChunkSize orMax
  cases readULong env "SHAMBLES_CHUNK_SIZE" with
  | some chunk => rfl
  | none =>
      cases readULong env "SHAMBLES_FAST_MEM_SIZE" with
      | none => rfl
      | some size => simp [h]

theorem toInt_eq_zero_iff (n : Nat) : toInt n = 0 ↔ 2 ^ 32 ∣ n := by
  rw [Nat.dvd_iff_mod_eq_zero]
  simp only [toInt]
  split
  · omega
  · omega

theorem freeFastChunks_iff (env : Environment) :
    toInt (readFastChunks env (readChunkSize env)) ≠ 0 ↔
      (∀ chunks, readULong env "SHAMBLES_FAST_MEM_CHUNKS" = some chunks → chunks ≠ 0 →
        ¬ 2 ^ 32 ∣ chunks) ∧
      (readULong env "SHAMBLES_FAST_MEM_CHUNKS" = none →
        ∀ size, readULong env "SHAMBLES_FAST_MEM_SIZE" = some size → size ≠ 0 →
        ¬ 2 ^ 32 ∣ size / orMax (readULong env "SHAMBLES_CHUNK_SIZE")) := by
  have hmax : ¬ 2 ^ 32 ∣ SIZE_T_MAX := by decide
  rw [ne_eq, toInt_eq_zero_iff]
  cases hchunks : readULong env "SHAMBLES_FAST_MEM_CHUNKS" with
  | some chunks =>
      by_cases hzero : chunks = 0
      · simpa [readFastChunks, hchunks, hzero] using hmax
      · simp [readFastChunks, hchunks, hzero]
  | none =>
      rw [readChunkSize_of_unset hchunks]
      cases hsize : readULong env "SHAMBLES_FAST_MEM_SIZE" with
      | none => simpa [readFastChunks, hchunks, hsize] using hmax
      | some size =>
          by_cases hzero : size = 0
          · simpa [readFastChunks, hchunks, hsize, hzero] using hmax
          · simp [readFastChunks, hchunks, hsize, hzero]

/-! ### The fast memory as a budget -/

theorem readULong_none {name : String} (h : env name = none) : readULong env name = none := by
  simp [readULong, h]

/-- A positive value is read as it is, and is a positive `long`. -/
theorem readULong_positive {name value : String} (h : env name = some value)
    (hpos : 0 < strtol value) :
    ∃ k, readULong env name = some k ∧ (k : Int) = strtol value ∧ 0 < k ∧ k < 2 ^ 63 := by
  have hmax := (strtol_bounds value).2
  have hvalue : (toULong (strtol value) : Int) = strtol value := toULong_of_nonneg hpos.le hmax
  refine ⟨toULong (strtol value), by simp [readULong, h], hvalue, by omega, ?_⟩
  unfold LONG_MAX at hmax
  omega

/-- A value that is set but not positive counts as a huge one. -/
theorem le_orMax_of_not_positive {name : String} (h : env name ≠ none)
    (hpos : ¬ Positive env name) :
    ∃ k, readULong env name = some k ∧ 2 ^ 63 ≤ orMax (some k) := by
  rcases Option.ne_none_iff_exists'.1 h with ⟨value, hvalue⟩
  have hle : strtol value ≤ 0 := not_lt.1 fun hlt => hpos ⟨value, hvalue, hlt⟩
  refine ⟨toULong (strtol value), by simp [readULong, hvalue], ?_⟩
  rcases hle.lt_or_eq with hneg | hzero
  · have hge := le_toULong_of_neg hneg (strtol_bounds value).1
    have hne : toULong (strtol value) ≠ 0 := by omega
    simpa [orMax, hne] using hge
  · simp [hzero, toULong, orMax, SIZE_T_MAX]

theorem readChunkSize_of_set {k : Nat} (h : readULong env "SHAMBLES_CHUNK_SIZE" = some k) :
    readChunkSize env = orMax (some k) := by
  simp [readChunkSize, h, orMax]

theorem readFastChunks_of_set {k : Nat} (h : readULong env "SHAMBLES_FAST_MEM_CHUNKS" = some k)
    (chunkSize : Nat) : readFastChunks env chunkSize = orMax (some k) := by
  simp [readFastChunks, h, orMax]

theorem orMax_pos {k : Nat} (h : 0 < k) : orMax (some k) = k := by
  simp [orMax, Nat.pos_iff_ne_zero.1 h]

/-- A product with a huge factor exceeds every amount of memory a `long` can name. -/
theorem not_budget {a b : Nat} {size : Int} (hsize : size ≤ LONG_MAX) (ha : 1 ≤ a)
    (hb : 2 ^ 63 ≤ b) : ¬ ((a * b : Nat) : Int) ≤ size := by
  intro hle
  have hprod : 1 * 2 ^ 63 ≤ a * b := Nat.mul_le_mul ha hb
  unfold LONG_MAX at hsize
  omega

/-- The number of chunks is the quotient. -/
theorem budget_of_chunks_unset {size k : Nat}
    (hsize : readULong env "SHAMBLES_FAST_MEM_SIZE" = some size) (hsizepos : 0 < size)
    (hk : readULong env "SHAMBLES_CHUNK_SIZE" = some k) (hkpos : 0 < k)
    (hnone : readULong env "SHAMBLES_FAST_MEM_CHUNKS" = none) :
    readChunkSize env * readFastChunks env (readChunkSize env) ≤ size := by
  have hfast : readFastChunks env k = size / k := by
    simp [readFastChunks, hnone, hsize, Nat.pos_iff_ne_zero.1 hsizepos]
  rw [readChunkSize_of_set hk, orMax_pos hkpos, hfast]
  exact Nat.mul_div_le size k

/-- The chunk size is the quotient. -/
theorem budget_of_chunkSize_unset {size k : Nat}
    (hsize : readULong env "SHAMBLES_FAST_MEM_SIZE" = some size) (hsizepos : 0 < size)
    (hk : readULong env "SHAMBLES_FAST_MEM_CHUNKS" = some k) (hkpos : 0 < k)
    (hnone : readULong env "SHAMBLES_CHUNK_SIZE" = none) :
    readChunkSize env * readFastChunks env (readChunkSize env) ≤ size := by
  have hchunkSize : readChunkSize env = size / k := by
    simp [readChunkSize, hnone, hsize, hk, Nat.pos_iff_ne_zero.1 hsizepos,
      Nat.pos_iff_ne_zero.1 hkpos]
  rw [readFastChunks_of_set hk, orMax_pos hkpos, hchunkSize]
  exact Nat.div_mul_le_self size k

theorem budget_iff (env : Environment) :
    (∀ value, env "SHAMBLES_FAST_MEM_SIZE" = some value → 0 < strtol value →
      Xor (Positive env "SHAMBLES_CHUNK_SIZE") (Positive env "SHAMBLES_FAST_MEM_CHUNKS") →
      ((readChunkSize env * readFastChunks env (readChunkSize env) : Nat) : Int) ≤ strtol value) ↔
    (Positive env "SHAMBLES_FAST_MEM_SIZE" →
      (Positive env "SHAMBLES_CHUNK_SIZE" → ¬ Positive env "SHAMBLES_FAST_MEM_CHUNKS" →
        env "SHAMBLES_FAST_MEM_CHUNKS" = none) ∧
      (Positive env "SHAMBLES_FAST_MEM_CHUNKS" → ¬ Positive env "SHAMBLES_CHUNK_SIZE" →
        env "SHAMBLES_CHUNK_SIZE" = none)) := by
  constructor
  · rintro h ⟨value, hvalue, hsize⟩
    have hmax := (strtol_bounds value).2
    refine ⟨?_, ?_⟩
    · intro hchunk hchunks
      by_contra hset
      rcases hchunk with ⟨v, hv, hpos⟩
      rcases readULong_positive hv hpos with ⟨k, hk, _, hkpos, _⟩
      rcases le_orMax_of_not_positive hset hchunks with ⟨n, hn, hhuge⟩
      have hle := h value hvalue hsize (Or.inl ⟨⟨v, hv, hpos⟩, hchunks⟩)
      rw [readFastChunks_of_set hn, readChunkSize_of_set hk, orMax_pos hkpos] at hle
      exact not_budget hmax hkpos hhuge hle
    · intro hchunks hchunk
      by_contra hset
      rcases hchunks with ⟨v, hv, hpos⟩
      rcases readULong_positive hv hpos with ⟨k, hk, _, hkpos, _⟩
      rcases le_orMax_of_not_positive hset hchunk with ⟨n, hn, hhuge⟩
      have hle := h value hvalue hsize (Or.inr ⟨⟨v, hv, hpos⟩, hchunk⟩)
      rw [readFastChunks_of_set hk, readChunkSize_of_set hn, orMax_pos hkpos, mul_comm] at hle
      exact not_budget hmax hkpos hhuge hle
  · intro h value hvalue hsize hxor
    rcases readULong_positive hvalue hsize with ⟨size, hread, hcast, hsizepos, _⟩
    rw [← hcast]
    have hunset := h ⟨value, hvalue, hsize⟩
    rcases hxor with ⟨⟨v, hv, hpos⟩, hchunks⟩ | ⟨⟨v, hv, hpos⟩, hchunk⟩
    · rcases readULong_positive hv hpos with ⟨k, hk, _, hkpos, _⟩
      have hnone := readULong_none (hunset.1 ⟨v, hv, hpos⟩ hchunks)
      exact_mod_cast budget_of_chunks_unset hread hsizepos hk hkpos hnone
    · rcases readULong_positive hv hpos with ⟨k, hk, _, hkpos, _⟩
      have hnone := readULong_none (hunset.2 ⟨v, hv, hpos⟩ hchunk)
      exact_mod_cast budget_of_chunkSize_unset hread hsizepos hk hkpos hnone

end Clauses

/-! ## Which environments are adequate -/

/-- An accepted configuration is usable exactly if the environment is adequate. -/
theorem usable_iff (m : Machine) (env : Environment) {config : ShamblesPluginConfig}
    (h : shamblesPluginConfigInit m env = some config) : Usable m env config ↔ Adequate m env := by
  rcases configInit_eq h with ⟨_, rfl⟩
  constructor
  · intro husable
    have hshifts : m.numaMaxNode + 2 + 1 < 64 := husable.shifts
    have hnodes : m.numaMaxNode ≤ 60 := by omega
    have hfree := (freeFastChunks_iff env).1 husable.freeFastChunks
    exact ⟨hnodes, (fastNode_iff m env hnodes).1 husable.fastNode,
      (chunkSize_pos_iff env).1 husable.chunkSize, hfree.1, hfree.2,
      (budget_iff env).1 husable.budget⟩
  · intro hadequate
    have hfree := (freeFastChunks_iff env).2 ⟨hadequate.chunks, hadequate.quotient⟩
    have hnodes := hadequate.nodes
    have hshifts : m.numaMaxNode + 2 + 1 < 64 := by omega
    exact ⟨(chunkSize_pos_iff env).2 hadequate.chunkSize, hfree, hshifts,
      masks_disjoint env _ _, (fastNode_iff m env hnodes).2 hadequate.fastNode,
      (budget_iff env).2 hadequate.unset⟩

/-- A machine whose nodes are `0` to `n`. -/
def Machine.upTo (n : Nat) : Machine where
  nodes := List.range (n + 1)
  numaMaxNode := n
  numaMaxNode_mem := by simp
  le_numaMaxNode := by
    intro k hk
    have hlt := List.mem_range.1 hk
    omega

/-- The environment with these variables and no others. -/
def Environment.of (vars : List (String × String)) : Environment :=
  fun name => vars.lookup name

/-- Two nodes, 1 GiB of fast memory on node 1 in chunks of 2 MiB. -/
theorem usable_two_nodes :
    ∃ config,
      shamblesPluginConfigInit (Machine.upTo 1)
        (Environment.of [("SHAMBLES_FAST_NODEMASK", "2"), ("SHAMBLES_CHUNK_SIZE", "0x200000"),
          ("SHAMBLES_FAST_MEM_SIZE", "0x40000000")]) = some config ∧
      (Usable (Machine.upTo 1)
          (Environment.of [("SHAMBLES_FAST_NODEMASK", "2"), ("SHAMBLES_CHUNK_SIZE", "0x200000"),
            ("SHAMBLES_FAST_MEM_SIZE", "0x40000000")]) config ↔
        Adequate (Machine.upTo 1)
          (Environment.of [("SHAMBLES_FAST_NODEMASK", "2"), ("SHAMBLES_CHUNK_SIZE", "0x200000"),
            ("SHAMBLES_FAST_MEM_SIZE", "0x40000000")])) :=
  ⟨⟨0x10000, 0x200000, 512, 3, 2, 0⟩, by decide, usable_iff _ _ (by decide)⟩

/-- Four accepted configurations that are not usable: a chunk size of zero, no fast chunk at all, a
fast mask that names no node, and a shift by 64. -/
theorem not_usable_accepted :
    (∃ config, shamblesPluginConfigInit (Machine.upTo 1)
        (Environment.of [("SHAMBLES_FAST_MEM_SIZE", "5"), ("SHAMBLES_FAST_MEM_CHUNKS", "10")]) =
        some config ∧ ¬ 1 ≤ config.chunkSize) ∧
    (∃ config, shamblesPluginConfigInit (Machine.upTo 1)
        (Environment.of [("SHAMBLES_FAST_MEM_SIZE", "0x40000000")]) = some config ∧
        ¬ toInt config.fastChunks ≠ 0) ∧
    (∃ config, shamblesPluginConfigInit (Machine.upTo 1)
        (Environment.of [("SHAMBLES_FAST_NODEMASK", "0x100")]) = some config ∧
        ¬ ∃ n ∈ (Machine.upTo 1).nodes, config.fastmask.testBit n = true) ∧
    (∃ config, shamblesPluginConfigInit (Machine.upTo 61) (Environment.of []) = some config ∧
        ¬ config.maxnode + 1 < 64) :=
  ⟨⟨⟨0x10000, 0, 10, 3, 15, 0⟩, by decide, by decide⟩,
    ⟨⟨0x10000, SIZE_T_MAX, 0, 3, 15, 0⟩, by decide, by decide⟩,
    ⟨⟨0x10000, SIZE_T_MAX, SIZE_T_MAX, 3, 0, 0⟩, by decide, by decide⟩,
    ⟨⟨0x10000, SIZE_T_MAX, SIZE_T_MAX, 63, 0, 0⟩, by decide, by decide⟩⟩

end Plugins
end Shambles
