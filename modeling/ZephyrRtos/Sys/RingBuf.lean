import ZephyrRtos.Lib.MachineInt
import ZephyrRtos.Lib.Memory
import ZephyrRtos.Lib.Ring

/-! `lib/utils/ring_buffer.c`: byte rings whose indices run on and wrap with their type, which has
`w` bits. -/

namespace ZephyrRtos.Sys

open Lib Ring

structure RingBufIndex (w : ℕ) where
  head : BitVec w
  tail : BitVec w
  base : BitVec w

structure RingBuf (w : ℕ) where
  buffer : Memory
  put : RingBufIndex w
  get : RingBufIndex w
  size : ℕ

variable {w : ℕ}

def ringBufferMaxSize (w : ℕ) : ℕ := (2 ^ w - 1) / 2

namespace RingBufIndex

def areaClaim (ring : RingBufIndex w) (bufSize size : ℕ) : ℕ × ℕ × RingBufIndex w :=
  let headOffset := ring.head - ring.base
  let headOffset :=
    if bufSize ≤ headOffset.toNat then headOffset - BitVec.ofNat w bufSize else headOffset
  let wrapSize := BitVec.ofNat w bufSize - headOffset
  let size := min size wrapSize.toNat
  (headOffset.toNat, size, { ring with head := ring.head + BitVec.ofNat w size })

def areaFinish (ring : RingBufIndex w) (bufSize size : ℕ) : RingBufIndex w :=
  if (ring.head - ring.tail).toNat < size then ring
  else
    let tail := ring.tail + BitVec.ofNat w size
    { head := tail
      tail
      base :=
        if bufSize ≤ (tail - ring.base).toNat then ring.base + BitVec.ofNat w bufSize
        else ring.base }

end RingBufIndex

namespace RingBuf

def init (buffer : Memory) (size : ℕ) : RingBuf w where
  buffer
  put := ⟨0, 0, 0⟩
  get := ⟨0, 0, 0⟩
  size

variable (buf : RingBuf w)

def isEmpty : Bool := buf.get.head = buf.put.tail

def spaceGet : ℕ := uint32 (buf.size - (buf.put.head - buf.get.tail).toNat)

def sizeGet : ℕ := (buf.put.tail - buf.get.head).toNat

def putClaim (size : ℕ) : ℕ × ℕ × RingBuf w :=
  let (dst, partialSize, put) := buf.put.areaClaim buf.size (min size buf.spaceGet)
  (dst, partialSize, { buf with put })

def getClaim (size : ℕ) : ℕ × ℕ × RingBuf w :=
  let (src, partialSize, get) := buf.get.areaClaim buf.size (min size buf.sizeGet)
  (src, partialSize, { buf with get })

/-- Each turn of the loop but the last one copies a byte at least, so `size` turns will do. -/
def putLoop (data : Memory) : ℕ → RingBuf w → ℕ → ℕ → ℕ → RingBuf w × ℕ
  | 0, buf, _, _, totalSize => (buf, totalSize)
  | fuel + 1, buf, ptr, size, totalSize =>
    let (dst, partialSize, buf) := buf.putClaim size
    if partialSize = 0 then (buf, totalSize)
    else
      let buf := { buf with buffer := buf.buffer.paste dst data ptr partialSize }
      putLoop data fuel buf (ptr + partialSize) (size - partialSize) (totalSize + partialSize)

def ringBufPut (data : Memory) (ptr size : ℕ) : RingBuf w × ℕ :=
  let (buf, totalSize) := putLoop data size buf ptr size 0
  ({ buf with put := buf.put.areaFinish buf.size totalSize }, totalSize)

def getLoop : ℕ → RingBuf w → Memory → ℕ → ℕ → ℕ → RingBuf w × Memory × ℕ
  | 0, buf, data, _, _, totalSize => (buf, data, totalSize)
  | fuel + 1, buf, data, ptr, size, totalSize =>
    let (src, partialSize, buf) := buf.getClaim size
    if partialSize = 0 then (buf, data, totalSize)
    else
      getLoop fuel buf (data.paste ptr buf.buffer src partialSize) (ptr + partialSize)
        (size - partialSize) (totalSize + partialSize)

def ringBufGet (data : Memory) (ptr size : ℕ) : RingBuf w × Memory × ℕ :=
  let (buf, data, totalSize) := getLoop size buf data ptr size 0
  ({ buf with get := buf.get.areaFinish buf.size totalSize }, data, totalSize)

def contents : List UInt8 :=
  ring buf.buffer buf.size (buf.get.tail - buf.get.base).toNat buf.sizeGet

end RingBuf

open List
variable {S q h k n p g r : ℕ}

theorem ofNat_sub_ofNat (hle : k ≤ n) :
    BitVec.ofNat w n - BitVec.ofNat w k = BitVec.ofNat w (n - k) := by
  rw [BitVec.sub_eq_iff_eq_add, ← BitVec.ofNat_add, Nat.sub_add_cancel hle]

theorem ofNat_add_ofNat : BitVec.ofNat w n + BitVec.ofNat w k = BitVec.ofNat w (n + k) :=
  (BitVec.ofNat_add ..).symm

theorem toNat_ofNat_of_lt (hlt : n < 2 ^ w) : (BitVec.ofNat w n).toNat = n := by
  rw [BitVec.toNat_ofNat, Nat.mod_eq_of_lt hlt]

theorem mod_eq_of_base (hle : S * q ≤ h) (hlt : h - S * q < 2 * S) :
    h % S = if S ≤ h - S * q then h - S * q - S else h - S * q := by
  obtain ⟨d, rfl⟩ := Nat.exists_eq_add_of_le hle
  rw [add_comm, Nat.add_mul_mod_self_left, Nat.add_sub_cancel] at *
  split
  · rw [Nat.mod_eq_sub_mod ‹_›, Nat.mod_eq_of_lt (by omega)]
  · rw [Nat.mod_eq_of_lt (by omega)]

namespace RingBufIndex

def idle (w S n : ℕ) : RingBufIndex w :=
  ⟨BitVec.ofNat w n, BitVec.ofNat w n, BitVec.ofNat w (S * (n / S))⟩

def claimed (w S n h : ℕ) : RingBufIndex w := { idle w S n with head := BitVec.ofNat w h }

theorem claim_claimed (hS : 0 < S) (hw : 2 * S < 2 ^ w) (hn : n ≤ h) (hh : h ≤ n + S) :
    (claimed w S n h).areaClaim S k =
      (h % S, min k (S - h % S), claimed w S n (h + min k (S - h % S))) := by
  have hbase : S * (n / S) ≤ h := (Nat.mul_div_le n S).trans hn
  have hmod := Nat.mod_add_div n S
  have hlt := Nat.mod_lt n hS
  have hoff : h - S * (n / S) < 2 * S := by omega
  have hS' : (BitVec.ofNat w (h - S * (n / S))).toNat = h - S * (n / S) :=
    toNat_ofNat_of_lt (by omega)
  have hhead : (if S ≤ h - S * (n / S) then
      .ofNat w (h - S * (n / S)) - BitVec.ofNat w S else .ofNat w (h - S * (n / S))) =
      .ofNat w (h % S) := by
    rw [mod_eq_of_base hbase hoff]
    split
    · rw [ofNat_sub_ofNat ‹_›]
    · rfl
  have hm := Nat.mod_lt h hS
  simp [areaClaim, claimed, idle, ofNat_sub_ofNat hbase, hS', hhead, ofNat_sub_ofNat hm.le, toNat_ofNat_of_lt (show h % S < 2 ^ w by omega), toNat_ofNat_of_lt (show S - h % S < 2 ^ w by omega), ofNat_add_ofNat]

theorem claim_zero (ring : RingBufIndex w) : (ring.areaClaim S 0).2 = (0, ring) := by
  simp [areaClaim]

theorem claimedSize_claimed (hw : 2 * S < 2 ^ w) (hn : n ≤ h) (hh : h ≤ n + S) :
    ((claimed w S n h).head - (claimed w S n h).tail).toNat = h - n := by
  simp only [claimed, idle]
  rw [ofNat_sub_ofNat hn, toNat_ofNat_of_lt (by omega)]

theorem finish_claimed (hw : 2 * S < 2 ^ w) (hk : n + k ≤ h) (hh : h ≤ n + S) :
    (claimed w S n h).areaFinish S k = idle w S (n + k) := by
  have hbase : S * (n / S) ≤ n + k := (Nat.mul_div_le n S).trans (Nat.le_add_right ..)
  have hsub := claimedSize_claimed hw (Nat.le_of_add_right_le hk) hh
  rw [areaFinish, if_neg (by omega)]
  simp only [claimed, idle, ofNat_add_ofNat, ofNat_sub_ofNat hbase]
  obtain rfl | hS := eq_zero_or_pos S
  · simp
  have hmod := Nat.mod_add_div n S
  have hlt := Nat.mod_lt n hS
  have hoff : n + k - S * (n / S) < 2 * S := by omega
  rw [toNat_ofNat_of_lt (by omega)]
  have hm := mod_eq_of_base hbase hoff
  have hmod' := Nat.mod_add_div (n + k) S
  congr 1
  split
  · rw [if_pos ‹_›] at hm
    congr 1
    omega
  · rw [if_neg ‹_›] at hm
    congr 1
    omega

end RingBufIndex

namespace RingBuf

open RingBufIndex

variable {buf : RingBuf w} {data : Memory} {fuel ptr total : ℕ}

structure Sized (buf : RingBuf w) : Prop where
  idx : 2 * buf.size < 2 ^ w
  size : buf.size < 2 ^ 32

theorem spaceGet_claimed (hs : buf.Sized) (hput : buf.put = claimed w buf.size p h)
    (hget : buf.get = claimed w buf.size g r) (hg : g ≤ h) (hh : h ≤ g + buf.size) :
    buf.spaceGet = g + buf.size - h := by
  obtain ⟨hidx, hsize⟩ := hs
  have hsub : (buf.put.head - buf.get.tail).toNat = h - g := by
    rw [hput, hget]
    simp only [claimed, idle]
    rw [ofNat_sub_ofNat hg, toNat_ofNat_of_lt (by omega)]
  zify
  rw [spaceGet, uint32_eq]
  omega

theorem sizeGet_claimed (hs : buf.Sized) (hput : buf.put = claimed w buf.size p r)
    (hget : buf.get = claimed w buf.size g h) (hh : h ≤ p) (hp : p ≤ h + buf.size) :
    buf.sizeGet = p - h := by
  have hidx := hs.idx
  rw [sizeGet, hput, hget]
  simp only [claimed, idle]
  rw [ofNat_sub_ofNat hh, toNat_ofNat_of_lt (by omega)]

theorem area_mod (hc : c ≤ S - h % S) (hi : i < c) : (h + i) % S = h % S + i := by
  rw [← Nat.mod_add_mod, Nat.mod_eq_of_lt (by omega)]

theorem ring_paste {m : Memory} {c : ℕ} (hc : c ≤ S - h % S) :
    ring (m.paste (h % S) data ptr c) S h c = data.list ptr c := by
  refine map_congr_left fun i hi => ?_
  have hi := mem_range.1 hi
  rw [area_mod hc hi]
  simp [Memory.paste, hi]

theorem paste_of_slot {m : Memory} {c i : ℕ} (hc : c ≤ S - h % S)
    (hfit : h + c ≤ g + S) (hi : i < h - g) :
    m.paste (h % S) data ptr c ((g + i) % S) = m ((g + i) % S) := by
  refine if_neg fun ⟨hle, hlt⟩ => ?_
  obtain ⟨j, hj⟩ := Nat.exists_eq_add_of_le hle
  have hmod := area_mod hc (i := j) (by omega)
  rw [show h + j = g + (h - g + j) by omega] at hmod
  have := slot_inj (by omega) (by omega) (hj.trans hmod.symm)
  omega

theorem putLoop_spec (data : Memory) (buf : RingBuf w) (ptr n total h k : ℕ) (hs : buf.Sized)
    (hput : buf.put = claimed w buf.size p h) (hget : buf.get = claimed w buf.size g r) (hg : g ≤ p) (hp : p ≤ h) (hh : h ≤ g + buf.size)
    (hf : n ≤ fuel) (hk : k = min n (g + buf.size - h)) :
    ∃ buffer, putLoop data fuel buf ptr n total =
        ({ buf with put := claimed w buf.size p (h + k), buffer }, total + k) ∧
      ring buffer buf.size h k = data.list ptr k ∧
      ∀ i < h - g, buffer ((g + i) % buf.size) = buf.buffer ((g + i) % buf.size) := by
  induction fuel generalizing buf ptr n total h k with
  | zero =>
    obtain rfl : k = 0 := by omega
    exact ⟨buf.buffer, by rw [putLoop, add_zero, ← hput, add_zero], rfl, fun _ _ => rfl⟩
  | succ fuel ih =>
    have hspace := spaceGet_claimed hs hput hget (hg.trans hp) hh
    obtain rfl | hk0 := eq_zero_or_pos k
    · have hzero := buf.put.claim_zero (S := buf.size)
      refine ⟨buf.buffer, ?_, rfl, fun _ _ => rfl⟩
      simp [putLoop, putClaim, hspace, ← hk, hzero, ← hput]
    have hS : 0 < buf.size := by omega
    have hm := Nat.mod_lt h hS
    have hclaim := claim_claimed (k := k) hS hs.idx hp (by omega)
    obtain ⟨c, hc⟩ : ∃ c, c = min k (buf.size - h % buf.size) := ⟨_, rfl⟩
    rw [← hc] at hclaim
    obtain ⟨buffer, hloop, hring, hsame⟩ := ih
      { buf with
        put := claimed w buf.size p (h + c)
        buffer := buf.buffer.paste (h % buf.size) data ptr c }
      (ptr + c) (n - c) (total + c) (h + c) (k - c) ⟨hs.idx, hs.size⟩ rfl hget
      (hp.trans (Nat.le_add_right ..)) (show h + c ≤ g + buf.size by omega) (by omega)
      (show k - c = min (n - c) (g + buf.size - (h + c)) by omega)
    simp only at hring hsame
    refine ⟨buffer, ?_, ?_, fun i hi => ?_⟩
    · simp only [putLoop, putClaim, hspace, ← hk, hput, hclaim]
      rw [if_neg (by omega), hloop, add_assoc, add_assoc, Nat.add_sub_cancel' (by omega)]
    · rw [← Nat.add_sub_cancel' (show c ≤ k by omega), ring_add, Memory.list_add, hring]
      congr 1
      have hpaste : ring (buf.buffer.paste (h % buf.size) data ptr c) buf.size h c = _ :=
        ring_paste (by omega)
      rw [← hpaste]
      refine ring_congr fun i hi => ?_
      rw [show h + i = g + (h - g + i) by omega]
      exact hsame _ (by omega)
    · rw [hsame i (by omega)]
      exact paste_of_slot (by omega) (by omega) hi

theorem getLoop_spec (buf : RingBuf w) (data : Memory) (ptr n total h k : ℕ) (hs : buf.Sized)
    (hput : buf.put = claimed w buf.size p r) (hget : buf.get = claimed w buf.size g h) (hg : g ≤ h)
    (hh : h ≤ p) (hp : p ≤ g + buf.size) (hf : n ≤ fuel) (hk : k = min n (p - h)) :
    ∃ data', getLoop fuel buf data ptr n total =
        ({ buf with get := claimed w buf.size g (h + k) }, data', total + k) ∧
      data'.list ptr k = ring buf.buffer buf.size h k ∧
      Memory.AgreeOff data data' ptr (ptr + k) := by
  induction fuel generalizing buf data ptr n total h k with
  | zero =>
    obtain rfl : k = 0 := by omega
    exact ⟨data, by rw [getLoop, Nat.add_zero, ← hget, Nat.add_zero], rfl, fun _ _ => rfl⟩
  | succ fuel ih =>
    have hsize := sizeGet_claimed hs hput hget hh (by omega)
    obtain rfl | hk0 := Nat.eq_zero_or_pos k
    · have hzero := buf.get.claim_zero (S := buf.size)
      refine ⟨data, ?_, rfl, fun _ _ => rfl⟩
      simp [getLoop, getClaim, hsize, ← hk, hzero, ← hget]
    have hS : 0 < buf.size := by omega
    have hm := Nat.mod_lt h hS
    have hclaim := claim_claimed (k := k) hS hs.idx hg (by omega)
    obtain ⟨c, hc⟩ : ∃ c, c = min k (buf.size - h % buf.size) := ⟨_, rfl⟩
    rw [← hc] at hclaim
    obtain ⟨data', hloop, hlist, hsame⟩ := ih
      { buf with get := claimed w buf.size g (h + c) }
      (data.paste ptr buf.buffer (h % buf.size) c) (ptr + c) (n - c) (total + c) (h + c) (k - c)
      ⟨hs.idx, hs.size⟩ hput rfl (hg.trans (Nat.le_add_right ..)) (by omega) hp (by omega)
      (show k - c = min (n - c) (p - (h + c)) by omega)
    refine ⟨data', ?_, ?_, ?_⟩
    · simp only [getLoop, getClaim, hsize, ← hk, hget, hclaim]
      rw [if_neg (by omega), hloop, Nat.add_assoc, Nat.add_assoc, Nat.add_sub_cancel' (by omega)]
    · rw [← Nat.add_sub_cancel' (show c ≤ k by omega), ring_add, Memory.list_add, hlist]
      congr 1
      rw [Memory.list_congr (hsame.agree (.inl le_rfl)), Memory.list_paste_self]
      refine map_congr_left fun i hi => ?_
      rw [area_mod (by omega) (mem_range.1 hi)]
    · have hfirst : Memory.AgreeOff data (data.paste ptr buf.buffer (h % buf.size) c) ptr (ptr + c) :=
        Memory.agreeOff_paste _ _
      exact (hfirst.widen le_rfl (by omega)).trans (hsame.widen (by omega) (by omega))

/-- `p` bytes were put and `g` of them were got. -/
structure At (buf : RingBuf w) (p g : ℕ) : Prop where
  sized : buf.Sized
  put : buf.put = idle w buf.size p
  get : buf.get = idle w buf.size g
  le : g ≤ p
  fits : p ≤ g + buf.size

def Holds (buf : RingBuf w) (l : List UInt8) : Prop :=
  ∃ p g, buf.At p g ∧ l = ring buf.buffer buf.size g (p - g)

theorem idle_claimed : idle w S n = claimed w S n n := rfl

namespace Holds

variable {l : List UInt8}

theorem init {buffer : Memory} (hw : w ≤ 32) (hS : S ≤ ringBufferMaxSize w) :
    (RingBuf.init buffer S : RingBuf w).Holds [] := by
  have h32 : 2 ^ w ≤ 2 ^ 32 := Nat.pow_le_pow_right (by omega) hw
  have hpos : 0 < 2 ^ w := Nat.two_pow_pos w
  rw [ringBufferMaxSize] at hS
  refine ⟨0, 0, ⟨⟨?_, ?_⟩, ?_, ?_, le_rfl, Nat.zero_le _⟩, rfl⟩
  · simp only [RingBuf.init]
    omega
  · simp only [RingBuf.init]
    omega
  · simp [RingBuf.init, idle]
  · simp [RingBuf.init, idle]

theorem length_le (h : buf.Holds l) : l.length ≤ buf.size := by
  obtain ⟨p, g, h, rfl⟩ := h
  rw [length_ring]
  have := h.fits
  omega

theorem sizeGet (h : buf.Holds l) : buf.sizeGet = l.length := by
  obtain ⟨p, g, h, rfl⟩ := h
  rw [sizeGet_claimed h.sized (h.put.trans idle_claimed) (h.get.trans idle_claimed) h.le h.fits, length_ring]

theorem spaceGet (h : buf.Holds l) : buf.spaceGet = buf.size - l.length := by
  obtain ⟨p, g, h, rfl⟩ := h
  rw [spaceGet_claimed h.sized (h.put.trans idle_claimed) (h.get.trans idle_claimed) h.le h.fits, length_ring]
  have := h.le
  omega

theorem isEmpty (h : buf.Holds l) : buf.isEmpty ↔ l = [] := by
  obtain ⟨p, g, h, rfl⟩ := h
  have hidx := h.sized.idx
  have hfits := h.fits
  have hsub : (.ofNat w p - BitVec.ofNat w g).toNat = p - g := by
    rw [ofNat_sub_ofNat h.le, toNat_ofNat_of_lt (by omega)]
  rw [RingBuf.isEmpty, h.get, h.put, decide_eq_true_eq, ← length_eq_zero_iff, length_ring]
  simp only [idle]
  constructor
  · intro heq
    rw [heq, BitVec.sub_self] at hsub
    exact hsub.symm
  · intro hzero
    rw [show p = g by have := h.le; omega]

theorem contents (h : buf.Holds l) : buf.contents = l := by
  rw [RingBuf.contents, h.sizeGet]
  obtain ⟨p, g, h, rfl⟩ := h
  rw [length_ring]
  obtain hS | hS := eq_zero_or_pos buf.size
  · have := h.fits
    rw [show p - g = 0 by omega, ring_zero, ring_zero]
  have hidx := h.sized.idx
  have hm := Nat.mod_lt g hS
  have hoff : (buf.get.tail - buf.get.base).toNat = g % buf.size := by
    rw [h.get]
    simp only [idle]
    rw [ofNat_sub_ofNat (Nat.mul_div_le ..), ← Nat.mod_eq_sub_mul_div, toNat_ofNat_of_lt (by omega)]
  rw [hoff, ring_mod]

theorem ringBufPut (h : buf.Holds l) (data : Memory) (ptr n : ℕ) :
    ∃ buf', buf.ringBufPut data ptr n = (buf', min n (buf.size - l.length)) ∧
      buf'.size = buf.size ∧ buf'.Holds (l ++ data.list ptr (min n (buf.size - l.length))) := by
  obtain ⟨p, g, h, rfl⟩ := h
  have hle := h.le
  have hfits := h.fits
  obtain ⟨k, hk⟩ : ∃ k, k = min n (g + buf.size - p) := ⟨_, rfl⟩
  obtain ⟨buffer, hloop, hring, hsame⟩ := putLoop_spec data buf ptr n 0 p k h.sized
    (h.put.trans idle_claimed) (h.get.trans idle_claimed) hle le_rfl hfits le_rfl hk
  have hmin : min n (buf.size - (ring buf.buffer buf.size g (p - g)).length) = k := by
    rw [length_ring]
    omega
  simp only [RingBuf.ringBufPut, hloop,
    finish_claimed h.sized.idx le_rfl (show p + k ≤ p + buf.size by omega), Nat.zero_add, hmin]
  refine ⟨_, rfl, rfl, p + k, g, ⟨⟨h.sized.idx, h.sized.size⟩, rfl, h.get, ?_, ?_⟩, ?_⟩
  · exact hle.trans (Nat.le_add_right ..)
  · show p + k ≤ g + buf.size
    omega
  · rw [show p + k - g = (p - g) + k by omega, ring_add, ring_congr hsame,
      Nat.add_sub_cancel' hle, hring]

theorem ringBufGet (h : buf.Holds l) (data : Memory) (ptr n : ℕ) :
    ∃ buf' data', buf.ringBufGet data ptr n = (buf', data', min n l.length) ∧
      buf'.size = buf.size ∧ buf'.Holds (l.drop (min n l.length)) ∧
      data'.list ptr (min n l.length) = l.take (min n l.length) ∧
      Memory.AgreeOff data data' ptr (ptr + min n l.length) := by
  obtain ⟨p, g, h, rfl⟩ := h
  have hle := h.le
  have hfits := h.fits
  obtain ⟨k, hk⟩ : ∃ k, k = min n (p - g) := ⟨_, rfl⟩
  obtain ⟨data', hloop, hlist, hsame⟩ := getLoop_spec buf data ptr n 0 g k h.sized
    (h.put.trans idle_claimed) (h.get.trans idle_claimed) le_rfl hle hfits le_rfl hk
  have hsplit : ring buf.buffer buf.size g (p - g) =
      ring buf.buffer buf.size g k ++ ring buf.buffer buf.size (g + k) (p - (g + k)) := by
    rw [← ring_add]
    congr 1
    omega
  simp only [RingBuf.ringBufGet, hloop,
    finish_claimed h.sized.idx le_rfl (show g + k ≤ g + buf.size by omega), zero_add,
    length_ring, ← hk]
  refine ⟨_, _, rfl, rfl, ⟨p, g + k, ⟨⟨h.sized.idx, h.sized.size⟩, h.put, rfl, ?_, ?_⟩, ?_⟩, ?_, hsame⟩
  · omega
  · show p ≤ g + k + buf.size
    omega
  · rw [hsplit, drop_left' length_ring]
  · rw [hlist, hsplit, take_left' length_ring]

end Holds

end RingBuf

end ZephyrRtos.Sys
