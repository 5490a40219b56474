import Mathlib.Tactic.Positivity
import ZephyrRtos.Lib.FiniteMap

namespace ZephyrRtos.HashMap

inductive Errno
  | enomem
  | enospc
  deriving DecidableEq

inductive Event
  | did (op : Lib.MapOp UInt64 UInt64)
  | refused (key : UInt64) (e : Errno)
  deriving DecidableEq

def Event.op : Event → Option (Lib.MapOp UInt64 UInt64)
  | .did op => some op
  | .refused .. => none

def ops (es : List Event) : List (Lib.MapOp UInt64 UInt64) := es.filterMap Event.op

/-- `struct sys_hashmap_config`, with the number of bits of `size_t`. -/
structure Config where
  sizeBits : ℕ
  maxSize : ℕ
  loadFactor : ℕ
  initialNBuckets : ℕ

def log2ceil (x : ℕ) : ℕ := if x ≤ 1 then 0 else Nat.log2 (x - 1) + 1

def nhpot (x : ℕ) : ℕ := if x < 1 then 1 else 2 ^ log2ceil x

def divRoundUp (n d : ℕ) : ℕ := (n + d - 1) / d

def sysHashmapConfig (sizeBits maxSize loadFactor : ℕ) : Config where
  sizeBits := sizeBits
  maxSize := maxSize
  loadFactor := loadFactor % 2 ^ 8
  initialNBuckets := nhpot (divRoundUp 100 loadFactor) % 2 ^ 8

namespace Config

variable {c : Config} {grow : Bool} {size nBuckets numReserved : ℕ}

def sizeT (c : Config) (x : ℕ) : ℕ := x % 2 ^ c.sizeBits

def sizeMax (c : Config) : ℕ := 2 ^ c.sizeBits - 1

def newSize (c : Config) (grow : Bool) (size : ℕ) : ℕ := c.sizeT (size + grow.toNat)

def newNBuckets (c : Config) (grow : Bool) (size nBuckets : ℕ) : ℕ :=
  let size := c.newSize grow size
  let n := c.sizeT (nBuckets + grow.toNat * (size == 1).toNat * c.initialNBuckets)
  let n := c.sizeT (n <<< (grow.toNat * (size != 1).toNat))
  let n := n >>> (!grow).toNat
  n * (size != 0).toNat

def shouldRehash (c : Config) (grow : Bool) (size nBuckets numReserved : ℕ) : Bool :=
  let size' := c.newSize grow size
  let n := c.newNBuckets grow size nBuckets
  let shouldGrow := grow && (nBuckets == 0 ||
    decide (c.sizeT (c.sizeT (size' + numReserved) * 100) / nBuckets > c.loadFactor))
  let shouldShrink := !grow && (n == 0 || decide (c.sizeT (size' * 100) / n ≤ c.loadFactor))
  shouldGrow || shouldShrink

/-- The sizes are such that no product overflows. -/
def Fits (c : Config) (entries : ℕ) : Prop := entries * 100 < 2 ^ c.sizeBits

instance : Decidable (c.Fits size) := inferInstanceAs (Decidable (_ < _))

theorem Fits.mono (h : c.Fits n) (hle : m ≤ n) : c.Fits m := by
  unfold Fits at *
  omega

theorem sizeT_of_lt (h : x < 2 ^ c.sizeBits) : c.sizeT x = x := Nat.mod_eq_of_lt h

theorem newNBuckets_first (hbits : 16 ≤ c.sizeBits) (hinit : c.initialNBuckets < 2 ^ 8) :
    c.newNBuckets true 0 0 = c.initialNBuckets := by
  have hpow : 2 ^ 16 ≤ 2 ^ c.sizeBits := Nat.pow_le_pow_right (by decide) hbits
  have hone : c.newSize true 0 = 1 := sizeT_of_lt (by simp; omega)
  have hi : c.sizeT c.initialNBuckets = c.initialNBuckets := sizeT_of_lt (by omega)
  simp [newNBuckets, hone, hi]

theorem newSize_grow (hfits : c.Fits (size + 1)) : c.newSize true size = size + 1 := by
  apply sizeT_of_lt
  unfold Fits at hfits
  simp only [Bool.toNat_true]
  omega

theorem shouldRehash_grow (hfits : c.Fits (size + 1 + numReserved)) :
    c.shouldRehash true size nBuckets numReserved =
      decide (nBuckets = 0 ∨ c.loadFactor < (size + 1 + numReserved) * 100 / nBuckets) := by
  have hsum : c.sizeT (size + 1 + numReserved) = size + 1 + numReserved := by
    apply sizeT_of_lt
    unfold Fits at hfits
    omega
  simp [shouldRehash, newSize_grow (hfits.mono (le_add_right ..)), hsum, sizeT_of_lt hfits]
  rfl

theorem lt_of_not_rehash (hlf : c.loadFactor < 100) (hfits : c.Fits (size + 1 + numReserved))
    (h : c.shouldRehash true size nBuckets numReserved = false) :
    size + 1 + numReserved < nBuckets := by
  rw [shouldRehash_grow hfits, decide_eq_false_iff_not] at h
  have hdiv : (size + 1 + numReserved) * 100 / nBuckets < 100 := by omega
  have hlt := (Nat.div_lt_iff_lt_mul (by omega)).1 hdiv
  omega

theorem newNBuckets_grow (hlf : 1 ≤ c.loadFactor) (hsize : size ≠ 0)
    (hfits : c.Fits (size + 1 + numReserved))
    (h : c.shouldRehash true size nBuckets numReserved = true) (hn : nBuckets ≠ 0) :
    c.newNBuckets true size nBuckets = 2 * nBuckets ∧ 2 * nBuckets < 2 ^ c.sizeBits := by
  have hnew : c.newSize true size = size + 1 := newSize_grow (hfits.mono (by omega))
  rw [shouldRehash_grow hfits, decide_eq_true_eq] at h
  have hdiv : 2 ≤ (size + 1 + numReserved) * 100 / nBuckets := by omega
  have hle := (Nat.le_div_iff_mul_le (by omega)).1 hdiv
  unfold Fits at hfits
  have h1 : c.sizeT nBuckets = nBuckets := sizeT_of_lt (by omega)
  have h2 : c.sizeT (nBuckets * 2) = nBuckets * 2 := sizeT_of_lt (by omega)
  have heq : (size == 0) = false := beq_eq_false_iff_ne.2 hsize
  refine ⟨?_, by omega⟩
  simp [newNBuckets, hnew, heq, bne, h1, Nat.shiftLeft_eq, h2, Nat.mul_comm 2]

theorem newNBuckets_shrink (hsize : size < 2 ^ c.sizeBits) (hn : nBuckets < 2 ^ c.sizeBits) :
    c.newNBuckets false size nBuckets = if size = 0 then 0 else nBuckets / 2 := by
  have hs : c.newSize false size = size := sizeT_of_lt (by simpa using hsize)
  simp only [newNBuckets, hs]
  split
  · next h => simp [h]
  · next h =>
    have heq : (size == 0) = false := beq_eq_false_iff_ne.2 h
    simp [heq, bne, sizeT_of_lt hn, Nat.shiftRight_eq_div_pow]

theorem shouldRehash_empty (hn : nBuckets < 2 ^ c.sizeBits) :
    c.shouldRehash false 0 nBuckets numReserved = true := by
  have h0 : (0 : ℕ) < 2 ^ c.sizeBits := by positivity
  simp [shouldRehash, newNBuckets_shrink h0 hn]

theorem lt_of_rehash (hlf : c.loadFactor < 100) (hfits : c.Fits size) (hsize : size ≠ 0)
    (hn : nBuckets < 2 ^ c.sizeBits) (hn2 : 2 ≤ nBuckets)
    (h : c.shouldRehash false size nBuckets numReserved = true) : size < nBuckets / 2 := by
  have hlt : size < 2 ^ c.sizeBits := by
    unfold Fits at hfits
    omega
  have hs : c.newSize false size = size := sizeT_of_lt (by simpa using hlt)
  simp only [shouldRehash, hs, newNBuckets_shrink hlt hn, hsize, if_false, sizeT_of_lt hfits,
    Bool.false_and, Bool.not_false, Bool.true_and, Bool.false_or, Bool.or_eq_true, beq_iff_eq,
    decide_eq_true_eq] at h
  have hdiv : size * 100 / (nBuckets / 2) < 100 := by omega
  have hlt := (Nat.div_lt_iff_lt_mul (by omega)).1 hdiv
  omega

end Config

variable {loadFactor : ℕ}

theorem config_initial (sizeBits maxSize : ℕ) (h1 : 1 ≤ loadFactor) (h100 : loadFactor < 100) :
    ∃ a, (sysHashmapConfig sizeBits maxSize loadFactor).initialNBuckets = 2 ^ (a + 1) ∧ a < 7 := by
  have hall : ∀ lf < 100, 1 ≤ lf → ∃ a < 7, nhpot (divRoundUp 100 lf) % 2 ^ 8 = 2 ^ (a + 1) := by
    decide +kernel
  obtain ⟨a, ha, heq⟩ := hall loadFactor h100 h1
  exact ⟨a, heq, ha⟩

end ZephyrRtos.HashMap
