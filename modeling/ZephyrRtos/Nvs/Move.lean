import ZephyrRtos.Nvs.States

namespace ZephyrRtos.Nvs

open List Lib Sys

variable {c : Config} {f : Flash} {s : Fs} {w v p o d x n len : ℕ} {buffer : List UInt8}
  {G : FlashOp → Prop}

theorem dataWrt_returns (hc : c.Good) (hw : w < c.sectorCount) (hdata : s.dataWra = addrOf w d)
    (hdvd : c.writeBlockSize ∣ bs.length) (hsize : d + bs.length ≤ c.sectorSize)
    (hlt : d + bs.length < 2 ^ 16)
    (hG : Steps c s.flash (s.ateWra / 2 ^ 16) (base c w + d) false bs G) :
    (flashDataWrt c bs false).Returns s G ()
      { s with
        flash := s.flash.put (base c w + d) (cells false bs)
        dataWra := addrOf w (d + bs.length) } := by
  have heq : ([] ++ if false = true then payload c bs else bs) = bs := rfl
  have h := dataAlWrt_returns (G := G) [] bs false hc hw hdata
  rw [heq, padded_of_dvd hc hdvd, alSize_of_dvd hc hdvd] at h
  exact h hsize hlt hG

theorem bytes_of_ne (hne : v ≠ w) (hd : d + bs.length ≤ c.sectorSize) (hx : x + n ≤ c.sectorSize) :
    Flash.bytes (f.put (base c w + d) (cells false bs)) (base c v + x) n =
      f.bytes (base c v + x) n :=
  Flash.bytes_congr ((sameOn_of_ne (put_sector hd false) hne).narrow)

theorem moveLoop_returns (hc : c.Good) (hw : w < c.sectorCount) (hv : v < c.sectorCount)
    (hne : v ≠ w) (hdata : s.dataWra = addrOf w d) (hdvd : c.writeBlockSize ∣ len)
    (hbuf : buffer.length < c.writeBlockSize) (hn : len ≤ n) (hpos : 0 < len)
    (hx : x + (len - buffer.length) ≤ c.sectorSize) (hx' : x + (len - buffer.length) < 2 ^ 16)
    (hd : d + len ≤ c.sectorSize) (hd' : d + len < 2 ^ 16)
    (hG : Steps c s.flash (s.ateWra / 2 ^ 16) (base c w + d) false
      (buffer ++ s.flash.bytes (base c v + x) (len - buffer.length)) G) :
    (flashBlockMoveLoop c n (addrOf v x) len buffer).Returns s G
      (addrOf v (x + (len - buffer.length)), [])
      { s with
        flash := s.flash.put (base c w + d)
          (cells false (buffer ++ s.flash.bytes (base c v + x) (len - buffer.length)))
        dataWra := addrOf w (d + len) } := by
  have hblock := block_pos hc
  have hdvd32 : c.writeBlockSize ∣ 32 := by
    obtain ⟨n, hn, hblock⟩ := hc.block
    rw [hblock]
    exact pow_dvd_pow 2 hn
  induction n generalizing s d x len buffer with
  | zero => omega
  | succ n ih =>
    have hle := Nat.le_of_dvd hpos hdvd
    rw [flashBlockMoveLoop, if_neg (by omega)]
    dsimp only
    rw [alignDown_block hc]
    -- the part that is moved in this step
    obtain ⟨m, hm⟩ : ∃ m, m = min 32 len := ⟨_, rfl⟩
    have hm32 := Nat.le_of_dvd (by decide) hdvd32
    have hmdvd : c.writeBlockSize ∣ m := by
      rw [hm]
      obtain h | h := le_total 32 len
      · rwa [Nat.min_eq_left h]
      · rwa [Nat.min_eq_right h]
    rw [← hm]
    have hchunk : (buffer ++ s.flash.bytes (base c v + x) (m - buffer.length)).length = m := by
      rw [length_append, Flash.length_bytes]
      omega
    have hsplit : buffer ++ s.flash.bytes (base c v + x) (len - buffer.length) =
        buffer ++ s.flash.bytes (base c v + x) (m - buffer.length) ++
          s.flash.bytes (base c v + (x + (m - buffer.length))) (len - m) := by
      rw [append_assoc, ← Nat.add_assoc, ← Flash.bytes_add]
      congr 2
      omega
    rw [hsplit] at hG ⊢
    refine Logged.Returns.bind (.reads (rd_addrOf hc s.flash hv (by omega) (by omega))) ?_
    generalize buffer ++ s.flash.bytes (base c v + x) (m - buffer.length) = chunk at hchunk hG ⊢
    refine Logged.Returns.bind (dataWrt_returns hc hw hdata (by rw [hchunk]; exact hmdvd)
      (by omega) (by omega) hG.left) ?_
    rw [hchunk, add32_addrOf (hv.trans hc.count_lt) (by omega),
      show len - (m - buffer.length + buffer.length) = len - m by omega]
    have hend : x + (len - buffer.length) = x + (m - buffer.length) + (len - m) := by omega
    rw [cells_append, Cells.put_append, length_cells, hchunk]
    obtain heq | hlt := eq_or_lt_of_le (show m ≤ len by omega)
    · -- the last step
      subst heq
      rw [Nat.sub_self, Flash.bytes, Cells.slice_zero, map_nil, cells, cells, map_nil,
        Cells.put_nil, hend, Nat.sub_self, Nat.add_zero]
      cases n with
      | zero => exact .pure
      | succ n =>
        rw [flashBlockMoveLoop, if_pos rfl]
        exact .pure
    · have htail := hG.tail (by rw [hchunk]; exact hmdvd)
      rw [hchunk] at htail
      rw [← bytes_of_ne (f := s.flash) (d := d) hne (by rw [hchunk]; omega) (by omega)] at htail ⊢
      rw [add_assoc] at htail ⊢
      rw [hend, show d + len = d + m + (len - m) by omega]
      refine @ih _ (d + m) (x + (m - buffer.length)) (len - m) [] rfl (Nat.dvd_sub hdvd hmdvd) hblock (by omega)
        (by omega) ?_ ?_ (by omega) (by omega) htail
      · show _ + (len - m) ≤ _
        omega
      · show _ + (len - m) < _
        omega

theorem move_returns (ate : Ate) (hc : c.Good) (hw : w < c.sectorCount)
    (hv : v < c.sectorCount) (hne : v ≠ w) (hdata : s.dataWra = addrOf w d)
    (hbuf : buffer.length < c.writeBlockSize) (hx : x + ate.len ≤ c.sectorSize)
    (hx' : x + ate.len < 2 ^ 16) (hsrc : s.flash.bytes (base c v + x) ate.len = src)
    (hk : k = (buffer ++ src).length - (buffer ++ src).length % c.writeBlockSize)
    (hd : d + (buffer ++ src).length ≤ c.sectorSize) (hd' : d + (buffer ++ src).length < 2 ^ 16)
    (hG : Steps c s.flash (s.ateWra / 2 ^ 16) (base c w + d) false ((buffer ++ src).take k) G) :
    (flashBlockMove c (addrOf v x) buffer ate).Returns s G
      ((buffer ++ src).drop k, { ate with offset := d + buffer.length })
      { s with
        flash := s.flash.put (base c w + d) (cells false ((buffer ++ src).take k))
        dataWra := addrOf w (d + k) } := by
  have hblock := block_pos hc
  obtain ⟨n, hn, hpow⟩ := hc.block
  have hlen : (buffer ++ src).length = ate.len + buffer.length := by
    rw [length_append, ← hsrc, Flash.length_bytes, add_comm]
  have htail : (ate.len + buffer.length) &&& (c.writeBlockSize - 1) =
      (ate.len + buffer.length) % c.writeBlockSize := by
    rw [hpow, Nat.and_two_pow_sub_one_eq_mod]
  have hmod := Nat.mod_le (ate.len + buffer.length) c.writeBlockSize
  have hmodlt := Nat.mod_lt (ate.len + buffer.length) hblock
  have hoffs : addrOffs (s.dataWra + buffer.length) = d + buffer.length := by
    rw [hdata, addrOf_add, addrOffs_addrOf (by omega)]
  rw [hlen] at hk hd hd'
  unfold flashBlockMove
  dsimp only
  refine .bind .get ?_
  rw [htail, ← hk, hoffs]
  have hkdvd : c.writeBlockSize ∣ k := hk ▸ Nat.dvd_sub_mod _
  obtain rfl | hkpos := eq_zero_or_pos k
  · -- all of it stays in the buffer
    rw [take_zero, drop_zero, cells, map_nil, Cells.put_nil, add_zero, ← hdata]
    have hloop : flashBlockMoveLoop c (ate.len + buffer.length) (addrOf v x) 0 buffer =
        pure (addrOf v x, buffer) := by
      cases ate.len + buffer.length with
      | zero => rfl
      | succ n => rw [flashBlockMoveLoop, if_pos rfl]
    rw [hloop]
    refine Logged.Returns.bind .pure ?_
    dsimp only
    split
    next =>
      rw [show (ate.len + buffer.length) % c.writeBlockSize - buffer.length = ate.len by omega]
      refine Logged.Returns.bind (.reads (rd_addrOf hc s.flash hv hx (by omega))) ?_
      rw [hsrc]
      exact .pure
    next hzero =>
      obtain rfl : buffer = [] := length_eq_zero_iff.1 (by omega)
      obtain rfl : src = [] := length_eq_zero_iff.1 (by
        rw [← hsrc, Flash.length_bytes]
        omega)
      exact .pure
  · have hkle := Nat.le_of_dvd hkpos hkdvd
    have hbytes := s.flash.bytes_add (base c v + x) (k - buffer.length)
      ((ate.len + buffer.length) % c.writeBlockSize)
    rw [show k - buffer.length + (ate.len + buffer.length) % c.writeBlockSize = ate.len by omega,
      hsrc] at hbytes
    have hsplit : (buffer ++ src).take k =
        buffer ++ s.flash.bytes (base c v + x) (k - buffer.length) := by
      rw [take_append, take_of_length_le (by omega), hbytes, take_left' (Flash.length_bytes ..)]
    have hdrop : (buffer ++ src).drop k = s.flash.bytes (base c v + (x + (k - buffer.length)))
        ((ate.len + buffer.length) % c.writeBlockSize) := by
      rw [drop_append, drop_eq_nil_of_le (by omega), nil_append, hbytes,
        drop_left' (Flash.length_bytes ..), ← add_assoc]
    rw [hdrop]
    rw [hsplit] at hG ⊢
    refine Logged.Returns.bind (moveLoop_returns hc hw hv hne hdata hkdvd hbuf (by omega)
      hkpos (by omega) (by omega) (by omega) (by omega) hG) ?_
    dsimp only
    rw [length_nil, Nat.sub_zero]
    split
    next =>
      refine Logged.Returns.bind (.reads (rd_addrOf hc _ hv (by omega) (by omega))) ?_
      dsimp only
      rw [bytes_of_ne hne (by rw [length_append, Flash.length_bytes]; omega) (by omega), nil_append]
      exact .pure
    next hzero =>
      rw [not_not.1 hzero]
      exact .pure

end ZephyrRtos.Nvs
