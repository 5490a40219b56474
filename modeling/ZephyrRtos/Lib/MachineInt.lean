import Mathlib.Tactic.Linarith

/-! Fixed-width integers as the compiler computes them: a value is a mathematical
integer, and each conversion or wrapping operation goes through one of these maps. -/

namespace ZephyrRtos.Lib

def int64Max : ℤ := 2 ^ 63 - 1
def int64Min : ℤ := -2 ^ 63
def int32Max : ℤ := 2 ^ 31 - 1
def uint32Max : ℕ := 2 ^ 32 - 1

def int64 (x : ℤ) : ℤ := Int.bmod x (2 ^ 64)
def int32 (x : ℤ) : ℤ := Int.bmod x (2 ^ 32)
def uint64 (x : ℤ) : ℕ := (x % 2 ^ 64).toNat
def uint32 (x : ℤ) : ℕ := (x % 2 ^ 32).toNat

theorem int64_eq (hu : x ≤ int64Max := by omega)
    (hl : int64Min ≤ x := by simp only [int64Min]; omega) : int64 x = x := by
  apply Int.bmod_eq_of_le <;> simp only [int64Min, int64Max] at hl hu <;> norm_num <;> omega

theorem int64_of_overflow (hl : int64Max < x) (hu : x ≤ int64Max + 2 ^ 63) :
    int64 x = x - 2 ^ 64 := by
  have hwrap : int64 x = int64 (x - 2 ^ 64) := by
    simp only [int64]
    rw [show x - 2 ^ 64 = x - ((2 ^ 64 : ℕ) : ℤ) by norm_num, Int.sub_bmod_right]
  rw [hwrap]
  apply int64_eq <;> simp only [int64Min, int64Max] at * <;> omega

theorem int64_range (x : ℤ) : int64Min ≤ int64 x ∧ int64 x ≤ int64Max := by
  have hl := Int.le_bmod (x := x) (m := 2 ^ 64) (by norm_num)
  have hu := Int.bmod_lt (x := x) (m := 2 ^ 64) (by norm_num)
  norm_num at hl hu
  constructor <;> norm_num [int64Min, int64Max, int64] <;> omega

@[simp] theorem int64_add_int64 (x y : ℤ) : int64 (x + int64 y) = int64 (x + y) := Int.add_bmod_bmod

@[simp] theorem int64_int64_add (x y : ℤ) : int64 (int64 x + y) = int64 (x + y) := Int.bmod_add_bmod

theorem int32_eq (hl : -2 ^ 31 ≤ x := by omega) (hu : x ≤ int32Max := by omega) : int32 x = x := by
  apply Int.bmod_eq_of_le <;> simp only [int32Max] at hu <;> norm_num <;> omega

theorem uint32_eq (hl : 0 ≤ x := by omega) (hu : x < 2 ^ 32 := by omega) : (uint32 x : ℤ) = x := by
  rw [uint32, Int.toNat_of_nonneg (Int.emod_nonneg _ (by norm_num)), Int.emod_eq_of_lt hl hu]

theorem uint32_lt (x : ℤ) : uint32 x < 2 ^ 32 := by
  simp only [uint32]
  omega

theorem uint64_eq (hl : 0 ≤ x := by omega) (hu : x < 2 ^ 64 := by omega) : (uint64 x : ℤ) = x := by
  rw [uint64, Int.toNat_of_nonneg (Int.emod_nonneg _ (by norm_num)), Int.emod_eq_of_lt hl hu]

theorem uint64_lt (x : ℤ) : uint64 x < 2 ^ 64 := by
  simp only [uint64]
  omega

theorem coe_uint64 (x : ℤ) : (uint64 x : ℤ) = x % 2 ^ 64 := by
  rw [uint64, Int.toNat_of_nonneg (Int.emod_nonneg _ (by norm_num))]

@[simp] theorem int64_uint64_sub (x y : ℤ) : int64 (uint64 x - y) = int64 (x - y) := by
  simp only [coe_uint64]
  exact_mod_cast Int.emod_sub_bmod x (2 ^ 64)

@[simp] theorem uint64_int64 (x : ℤ) : uint64 (int64 x) = uint64 x := by
  simp only [uint64]
  congr 1
  exact_mod_cast Int.bmod_emod

end ZephyrRtos.Lib
