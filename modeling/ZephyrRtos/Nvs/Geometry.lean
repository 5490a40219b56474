import Mathlib.Algebra.Order.Group.Nat
import Mathlib.Data.Nat.Bitwise
import ZephyrRtos.Nvs.Model

namespace ZephyrRtos.Nvs

open Lib

/-- The geometries that are supported: the entries divide a sector, which has room for four, and the
addresses fit. With one erase value an erased entry looks like a valid one. -/
structure Config.Good (c : Config) : Prop where
  block : ∃ n ≤ 5, c.writeBlockSize = 2 ^ n
  dvd : ateSize c ∣ c.sectorSize
  four : 4 * ateSize c ≤ c.sectorSize
  size_le : c.sectorSize ≤ 2 ^ 16
  page : c.sectorSize % c.pageSize = 0
  two : 2 ≤ c.sectorCount
  count_lt : c.sectorCount < 2 ^ 16
  device : c.offset + c.sectorSize * c.sectorCount ≤ c.deviceSize
  erase : c.eraseValue ≠ 0x52

variable {c : Config} {x y w v off len a : ℕ}

theorem alignDown_eq (h : ∃ n ≤ 5, c.writeBlockSize = 2 ^ n) (x : ℕ) :
    alignDown c.writeBlockSize x = x - x % c.writeBlockSize := by
  obtain ⟨n, -, hn⟩ := h
  rw [alignDown, hn, Nat.and_two_pow_sub_one_eq_mod]

section

variable (hc : c.Good)
include hc

theorem block_pos : 0 < c.writeBlockSize := by
  obtain ⟨n, -, hn⟩ := hc.block
  rw [hn]
  exact Nat.two_pow_pos n

theorem block_le : c.writeBlockSize ≤ 32 := by
  obtain ⟨n, hle, hn⟩ := hc.block
  rw [hn]
  exact Nat.pow_le_pow_right (by decide) hle

theorem alSize_eq (x : ℕ) : alSize c x =
    x + (c.writeBlockSize - 1) - (x + (c.writeBlockSize - 1)) % c.writeBlockSize := by
  have hpos := block_pos hc
  rw [alSize]
  split
  next hone =>
    obtain heq : c.writeBlockSize = 1 := by omega
    rw [heq]
    omega
  next => exact alignDown_eq hc.block _

theorem le_alSize (x : ℕ) : x ≤ alSize c x := by
  have hpos := block_pos hc
  have hlt := Nat.mod_lt (x + (c.writeBlockSize - 1)) hpos
  rw [alSize_eq hc]
  omega

theorem alSize_lt (x : ℕ) : alSize c x < x + c.writeBlockSize := by
  have hpos := block_pos hc
  rw [alSize_eq hc]
  omega

theorem dvd_alSize (x : ℕ) : c.writeBlockSize ∣ alSize c x := by
  rw [alSize_eq hc]
  exact Nat.dvd_sub_mod _

theorem alSize_le (hxy : x ≤ y) (hdvd : c.writeBlockSize ∣ y) : alSize c x ≤ y := by
  -- two multiples of a block that are less than a block apart
  have hlt := alSize_lt hc x
  obtain ⟨m, hm⟩ := dvd_alSize hc x
  obtain ⟨n, hn⟩ := hdvd
  rw [hm, hn]
  refine Nat.mul_le_mul_left _ ?_
  by_contra hgt
  have hmul := Nat.mul_le_mul_left c.writeBlockSize (show n + 1 ≤ m by omega)
  rw [mul_add] at hmul
  omega

theorem alSize_of_dvd (hdvd : c.writeBlockSize ∣ x) : alSize c x = x :=
  le_antisymm (alSize_le hc le_rfl hdvd) (le_alSize hc x)

theorem alSize_mono (hxy : x ≤ y) : alSize c x ≤ alSize c y :=
  alSize_le hc (hxy.trans (le_alSize hc y)) (dvd_alSize hc y)

theorem alSize_add (hdvd : c.writeBlockSize ∣ x) : alSize c (x + y) = x + alSize c y := by
  refine le_antisymm (alSize_le hc ?_ (Nat.dvd_add hdvd (dvd_alSize hc y))) ?_
  · exact Nat.add_le_add_left (le_alSize hc y) x
  obtain ⟨z, hz⟩ := Nat.exists_eq_add_of_le ((Nat.le_add_right x y).trans (le_alSize hc _))
  rw [hz]
  refine Nat.add_le_add_left (alSize_le hc ?_ ?_) x
  · have hle := le_alSize hc (x + y)
    omega
  · exact (Nat.dvd_add_right hdvd).1 (hz ▸ dvd_alSize hc (x + y))

theorem alSize_zero : alSize c 0 = 0 := alSize_of_dvd hc (Nat.dvd_zero _)

theorem sizeofAte_le : sizeofAte ≤ ateSize c := le_alSize hc _

theorem dvd_ateSize : c.writeBlockSize ∣ ateSize c := dvd_alSize hc _

end

def addrOf (w off : ℕ) : ℕ := w * 2 ^ 16 + off

def base (c : Config) (w : ℕ) : ℕ := c.offset + c.sectorSize * w

theorem addrOffs_addrOf (h : off < 2 ^ 16) : addrOffs (addrOf w off) = off := by
  unfold addrOffs addrOf
  omega

theorem addrSect_addrOf (h : off < 2 ^ 16) : addrSect (addrOf w off) = addrOf w 0 := by
  unfold addrSect addrOf
  omega

theorem addrOf_div (h : off < 2 ^ 16) : addrOf w off / 2 ^ 16 = w := by
  unfold addrOf
  omega

theorem addrOf_inj (h : x < 2 ^ 16) (h' : y < 2 ^ 16) (heq : addrOf w x = addrOf v y) : w = v ∧ x = y := by
  unfold addrOf at heq
  omega

theorem addrOf_add : addrOf w x + y = addrOf w (x + y) := add_assoc ..

theorem offset_addrOf (h : off < 2 ^ 16) : flashOffset c (addrOf w off) = base c w + off := by
  rw [flashOffset, addrOf_div h, addrOffs_addrOf h, base]

theorem add32_addrOf (hw : w < 2 ^ 16) (h : x + y < 2 ^ 16) : add32 (addrOf w x) y = addrOf w (x + y) := by
  unfold add32 addrOf
  omega

theorem sub32_addrOf (hw : w < 2 ^ 16) (hx : x < 2 ^ 16) (h : y ≤ x) :
    sub32 (addrOf w x) y = addrOf w (x - y) := by
  unfold sub32 addrOf
  omega

def next (c : Config) (w : ℕ) : ℕ := if w + 1 = c.sectorCount then 0 else w + 1

def back (c : Config) (w i : ℕ) : ℕ := if i ≤ w then w - i else w + c.sectorCount - i

theorem advance_addrOf (hcount : c.sectorCount < 2 ^ 16) (hw : w < c.sectorCount)
    (h : off < 2 ^ 16) : sectorAdvance c (addrOf w off) = addrOf (next c w) off := by
  have hadd : add32 (addrOf w off) (2 ^ 16) = addrOf (w + 1) off := by
    unfold add32 addrOf
    omega
  unfold sectorAdvance next
  simp only
  rw [hadd, addrOf_div h]
  split
  next heq =>
    unfold sub32 addrOf
    omega
  next => rfl

theorem rd_addrOf (hc : c.Good) (f : Flash) (hw : w < c.sectorCount)
    (h : off + len ≤ c.sectorSize) (hoff : off < 2 ^ 16) :
    flashRd c f (addrOf w off) len = .ok (f.bytes (base c w + off) len) := by
  have hmul : c.sectorSize * (w + 1) ≤ c.sectorSize * c.sectorCount := Nat.mul_le_mul_left _ hw
  have hdev := hc.device
  rw [flashRd, offset_addrOf hoff, flashRead, if_pos]
  rw [mul_add] at hmul
  unfold base
  omega

end ZephyrRtos.Nvs
