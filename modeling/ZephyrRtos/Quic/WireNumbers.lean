import Mathlib.Data.Nat.ModEq
import ZephyrRtos.Lib.Bytes

/-! The packet numbers and the variable-length integers of QUIC. -/

namespace ZephyrRtos.Quic

open List Lib

/-- The two parts of the candidate are put together by an or. -/
def quicReconstructPn (truncatedPn pnNbits largestPn : ℕ) : ℕ :=
  let expected := (largestPn + 1) % 2 ^ 64
  let win := 2 ^ pnNbits
  let candidate := win * (expected / win) ||| truncatedPn
  if (candidate + win / 2) % 2 ^ 64 ≤ expected ∧ (candidate + win) % 2 ^ 64 < 2 ^ 62 then
    (candidate + win) % 2 ^ 64
  else if (expected + win / 2) % 2 ^ 64 < candidate ∧ win ≤ candidate then candidate - win
  else candidate

def quicDecodeLen (byte : UInt8) : ℕ := 2 ^ (byte.toNat / 64)

def quicEncodeLen (len : ℕ) : ℕ := len.log2 % 4 * 64

def quicGetLen : List UInt8 → Option (ℕ × ℕ)
  | [] => none
  | b :: bs =>
    if bs.length + 1 < quicDecodeLen b then none
    else some (b.toNat % 64 * 256 ^ (quicDecodeLen b - 1) +
      ofLeBytes (bs.take (quicDecodeLen b - 1)).reverse, quicDecodeLen b)

def quicGetVarintSize (val : ℕ) : ℕ :=
  if val < 0x40 then 1 else if val < 0x4000 then 2 else if val < 0x40000000 then 4 else 8

def quicPutLen (buf : List UInt8) (len : ℕ) : Option (List UInt8) :=
  let size := quicGetVarintSize len
  if buf.length < size then none
  else some (.ofNat (len / 256 ^ (size - 1) % 64 + quicEncodeLen size) ::
    ((leBytes (size - 1) len).reverse ++ buf.drop size))

theorem quicReconstructPn_spec (hbits : bits ∈ [8, 16, 24, 32]) (hlargest : largest < 2 ^ 62 - 1)
    (ht : t < 2 ^ bits) : quicReconstructPn t bits largest % 2 ^ bits = t ∧
      quicReconstructPn t bits largest < 2 ^ 62 ∧
      ∀ n < 2 ^ 62, n % 2 ^ bits = t → largest + 1 < n + 2 ^ (bits - 1) →
        n ≤ largest + 1 + 2 ^ (bits - 1) → quicReconstructPn t bits largest = n := by
  simp only [quicReconstructPn]
  rw [← Nat.two_pow_add_eq_or_of_lt ht, Nat.mod_eq_of_lt (show largest + 1 < 2 ^ 64 by omega)]
  simp only [mem_cons, not_mem_nil, or_false] at hbits
  obtain rfl | rfl | rfl | rfl := hbits <;> (split <;> try split) <;>
    refine ⟨?_, ?_, fun n _ _ _ _ => ?_⟩ <;> omega

theorem exists_varint_size (h : v < 2 ^ 62) :
    ∃ k ≤ 3, quicGetVarintSize v = 2 ^ k ∧ v < 64 * 256 ^ (2 ^ k - 1) := by
  unfold quicGetVarintSize
  split
  · exact ⟨0, by decide, rfl, by omega⟩
  split
  · exact ⟨1, by decide, rfl, by omega⟩
  split
  · exact ⟨2, by decide, rfl, by omega⟩
  · exact ⟨3, by decide, rfl, by omega⟩

theorem quicGetLen_put (h : v < 2 ^ 62) (hput : quicPutLen buf v = some out) :
    quicGetLen out = some (v, quicGetVarintSize v) := by
  obtain ⟨k, hk, hsize, hlt⟩ := exists_varint_size h
  simp only [quicPutLen, hsize] at hput ⊢
  split at hput
  · cases hput
  next hlen =>
  obtain rfl := Option.some.inj hput
  generalize hn : 2 ^ k - 1 = n at *
  have hb : (UInt8.ofNat (v / 256 ^ n % 64 + quicEncodeLen (2 ^ k))).toNat =
      v / 256 ^ n % 64 + k * 64 := by
    rw [quicEncodeLen, Nat.log2_two_pow, UInt8.toNat_ofNat']
    omega
  have hdec : quicDecodeLen (.ofNat (v / 256 ^ n % 64 + quicEncodeLen (2 ^ k))) = 2 ^ k := by
    rw [quicDecodeLen, hb]
    congr 1
    omega
  have hdiv : v / 256 ^ n % 64 = v / 256 ^ n :=
    Nat.mod_eq_of_lt (Nat.div_lt_of_lt_mul (by rwa [mul_comm]))
  have hpos := Nat.two_pow_pos k
  rw [quicGetLen, hdec, hn, if_neg (by simp; omega), hb, take_left' (by simp), reverse_reverse,
    ofLeBytes_leBytes, show (v / 256 ^ n % 64 + k * 64) % 64 = v / 256 ^ n by omega, mul_comm,
    Nat.div_add_mod]

end ZephyrRtos.Quic
