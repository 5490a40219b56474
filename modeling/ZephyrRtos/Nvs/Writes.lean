import ZephyrRtos.Nvs.Reads

namespace ZephyrRtos.Nvs

open List hiding head tail

open Lib Sys

variable {c : Config} {f g : Flash} {s : Fs} {w p o d a b i n off : ℕ} {entry : Bool}
  {bs xs ys : List UInt8} {G : FlashOp → Prop}

def cells (entry : Bool) (bs : List UInt8) : List Cell := bs.map (⟨·, entry⟩)

theorem length_cells : (cells entry bs).length = bs.length := length_map _

theorem cells_append : cells entry (xs ++ ys) = cells entry xs ++ cells entry ys := map_append

theorem bytes_put (f : Flash) (a : ℕ) (bs : List UInt8) (entry : Bool) :
    Flash.bytes (f.put a (cells entry bs)) a bs.length = bs := by
  have h := Cells.slice_put_self f a (cells entry bs)
  rw [length_cells] at h
  rw [Flash.bytes, h, cells, map_map]
  exact map_id' _

def padded (c : Config) (bs : List UInt8) : List UInt8 :=
  bs ++ List.replicate (alSize c bs.length - bs.length) c.eraseValue

theorem length_padded (hc : c.Good) (bs : List UInt8) : (padded c bs).length = alSize c bs.length := by
  have hle := le_alSize hc bs.length
  rw [padded, length_append, length_replicate]
  omega

theorem padded_of_dvd (hc : c.Good) (h : c.writeBlockSize ∣ bs.length) : padded c bs = bs := by
  rw [padded, alSize_of_dvd hc h, Nat.sub_self, replicate_zero, append_nil]

theorem bytes_put_padded (f : Flash) (a : ℕ) (bs : List UInt8) (entry : Bool) :
    Flash.bytes (f.put a (cells entry (padded c bs))) a bs.length = bs := by
  rw [padded, cells_append, Cells.put_append, length_cells]
  exact (Flash.bytes_congr (Cells.sameOff_put.on (.inl le_rfl))).trans (bytes_put ..)

abbrev putAte (c : Config) (f : Flash) (w o : ℕ) (ate : Ate) : Flash :=
  f.put (base c w + o) (cells true (padded c ate.bytes))

abbrev ateOp (c : Config) (f : Flash) (w o : ℕ) (ate : Ate) : FlashOp :=
  ⟨f, putAte c f w o ate, w, .write (base c w + o) (padded c ate.bytes) true⟩

/-- The bytes are written in steps of whole blocks, each of which meets `G`. -/
def Steps (c : Config) (f : Flash) (sector off : ℕ) (entry : Bool) (bs : List UInt8)
    (G : FlashOp → Prop) : Prop :=
  ∀ xs ys zs, bs = xs ++ ys ++ zs → c.writeBlockSize ∣ xs.length → c.writeBlockSize ∣ ys.length →
    ys ≠ [] → G ⟨f.put off (cells entry xs), f.put off (cells entry (xs ++ ys)), sector,
      .write (off + xs.length) ys entry⟩

theorem Steps.tail (h : Steps c f sector off entry (xs ++ ys) G)
    (hdvd : c.writeBlockSize ∣ xs.length) :
    Steps c (f.put off (cells entry xs)) sector (off + xs.length) entry ys G := by
  intro us vs ws heq hus hvs hne
  have := h (xs ++ us) vs ws (by rw [heq]; simp) (by rw [length_append]; exact Nat.dvd_add hdvd hus)
    hvs hne
  rwa [cells_append, Cells.put_append, append_assoc, cells_append, Cells.put_append,
    length_cells, length_append, ← add_assoc] at this

theorem Steps.head (h : Steps c f sector off entry (xs ++ ys) G)
    (hdvd : c.writeBlockSize ∣ xs.length) (hne : xs ≠ []) :
    G ⟨f, f.put off (cells entry xs), sector, .write off xs entry⟩ := by
  have := h [] xs ys rfl (Nat.dvd_zero _) hdvd hne
  simpa [cells] using this

theorem Steps.left (h : Steps c f sector off entry (xs ++ ys) G) :
    Steps c f sector off entry xs G := by
  intro us vs ws heq hus hvs hne
  exact h us vs (ws ++ ys) (by rw [heq, append_assoc]) hus hvs hne

theorem write_returns (hoff : off + bs.length ≤ c.deviceSize)
    (hG : G ⟨s.flash, s.flash.put off (cells entry bs), s.ateWra / 2 ^ 16, .write off bs entry⟩) :
    (flashWrite c off bs entry).Returns s G () { s with flash := s.flash.put off (cells entry bs) } := by
  refine ⟨[_], ?_, fun op hop => (mem_singleton.1 hop).symm ▸ hG⟩
  exact if_pos hoff

def writeAll (c : Config) (entry : Bool) : ℕ → List (List UInt8) → Prog Unit
  | _, [] => pure ()
  | off, x :: l => do
    flashWrite c off x entry
    writeAll c entry (off + x.length) l

/-- Pieces of whole blocks that are the bytes, and then padding to the end of a block. -/
structure Cut (c : Config) (bs : List UInt8) (l : List (List UInt8)) : Prop where
  flatten : ∃ k < c.writeBlockSize, l.flatten = bs ++ replicate k c.eraseValue
  blocks : ∀ x ∈ l, x ≠ [] ∧ c.writeBlockSize ∣ x.length

theorem Cut.cons (h : Cut c ys l) (hne : xs ≠ []) (hdvd : c.writeBlockSize ∣ xs.length) :
    Cut c (xs ++ ys) (xs :: l) where
  flatten := by
    obtain ⟨k, hk, heq⟩ := h.flatten
    exact ⟨k, hk, by rw [flatten_cons, heq, append_assoc]⟩
  blocks := forall_mem_cons.2 ⟨⟨hne, hdvd⟩, h.blocks⟩

theorem writeAll_singleton : writeAll c entry off [xs] = flashWrite c off xs entry := by
  funext s
  show Logged.bind _ _ s = _
  rw [Logged.bind]
  split
  next h => simp [h, writeAll, pure]
  next h => rw [h]

theorem flashAlWrtLoop_eq (off : ℕ) (hblock : ∃ n ≤ 5, c.writeBlockSize = 2 ^ n)
    (hbuf : buf.length < c.writeBlockSize) (hn : streams.flatten.length + streams.length < n) :
    ∃ l, flashAlWrtLoop c entry n streams buf off = writeAll c entry off l ∧
      Cut c (buf ++ streams.flatten) l := by
  induction n generalizing streams buf off with
  | zero => omega
  | succ n ih =>
    cases streams with
    | nil =>
      rw [flatten_nil, append_nil, flashAlWrtLoop]
      by_cases hnil : buf = []
      · subst hnil
        exact ⟨[], rfl, ⟨0, hbuf, rfl⟩, nofun⟩
      · have hpos := length_pos_iff.2 hnil
        refine ⟨[_], by rw [if_pos hnil, writeAll_singleton], ⟨_, ?_, flatten_singleton⟩, ?_⟩
        · omega
        · rw [forall_mem_singleton, length_append, length_replicate, Nat.add_sub_cancel' hbuf.le]
          exact ⟨append_ne_nil_of_left_ne_nil hnil _, dvd_rfl⟩
    | cons stream streams =>
      rw [flatten_cons, length_append, length_cons] at hn
      rw [flatten_cons, flashAlWrtLoop]
      dsimp only
      -- what is left after `k` bytes were taken from the stream
      have hrest : ∀ k, 0 < k → k ≤ stream.length →
          (stream.drop k :: streams).flatten.length + (stream.drop k :: streams).length < n := by
        intro k h1 h2
        rw [flatten_cons, length_append, length_drop, length_cons]
        omega
      have hsplit : ∀ k, buf ++ (stream ++ streams.flatten) =
          buf ++ stream.take k ++ (stream.drop k :: streams).flatten := by
        intro k
        rw [flatten_cons, append_assoc, ← append_assoc (stream.take k), take_append_drop]
      split
      next hnil =>
        subst hnil
        exact ih off hbuf (by rw [length_nil] at hn; omega)
      next hne =>
        have hpos := length_pos_iff.2 hne
        have hblocks := alignDown_eq hblock stream.length
        split
        next hcond =>
          obtain ⟨rfl, hfull⟩ := hcond
          obtain ⟨l, heq, hcut⟩ := ih (off + alignDown c.writeBlockSize stream.length) hbuf
            (hrest _ hfull (by omega))
          have hlen : (stream.take (alignDown c.writeBlockSize stream.length)).length =
              alignDown c.writeBlockSize stream.length := length_take_of_le (by omega)
          refine ⟨_ :: l, by rw [heq, writeAll, hlen], ?_⟩
          rw [hsplit (alignDown c.writeBlockSize stream.length), nil_append]
          refine hcut.cons (ne_nil_of_length_pos (by omega)) ?_
          rw [hlen, hblocks]
          exact Nat.dvd_sub_mod _
        next =>
          obtain ⟨k, hk⟩ : ∃ k, k = min (c.writeBlockSize - buf.length) stream.length := ⟨_, rfl⟩
          have hlen : (buf ++ stream.take k).length = buf.length + k := by
            rw [length_append, length_take_of_le (by omega)]
          rw [← hk, hsplit k]
          split
          next heq =>
            obtain ⟨l, hprog, hcut⟩ := @ih _ [] (off + c.writeBlockSize) (Nat.zero_lt_of_lt hbuf)
              (hrest k (by omega) (by omega))
            refine ⟨_ :: l, by rw [hprog, writeAll, heq], hcut.cons ?_ heq.symm.dvd⟩
            exact ne_nil_of_length_pos (by omega)
          next hlt => exact ih off (by omega) (hrest k (by omega) (by omega))

theorem dvd_flatten {l : List (List UInt8)} (h : ∀ x ∈ l, x ≠ [] ∧ n ∣ x.length) :
    n ∣ l.flatten.length := by
  induction l with
  | nil => exact Nat.dvd_zero n
  | cons x l ih =>
    rw [forall_mem_cons] at h
    rw [flatten_cons, length_append]
    exact Nat.dvd_add h.1.2 (ih h.2)

theorem Cut.eq_padded (hc : c.Good) (h : Cut c bs l) : l.flatten = padded c bs := by
  have hdvd := dvd_flatten h.blocks
  obtain ⟨k, hk, heq⟩ := h.flatten
  rw [heq, length_append, length_replicate] at hdvd
  have hle := alSize_le hc (Nat.le_add_right bs.length k) hdvd
  have hge := le_alSize hc bs.length
  have hzero : bs.length + k - alSize c bs.length = 0 :=
    Nat.eq_zero_of_dvd_of_lt (Nat.dvd_sub hdvd (dvd_alSize hc _)) (by omega)
  rw [heq, padded, show alSize c bs.length - bs.length = k by omega]

theorem writeAll_returns (hoff : off + l.flatten.length ≤ c.deviceSize)
    (hl : ∀ x ∈ l, x ≠ [] ∧ c.writeBlockSize ∣ x.length)
    (hG : Steps c s.flash (s.ateWra / 2 ^ 16) off entry l.flatten G) :
    (writeAll c entry off l).Returns s G ()
      { s with flash := s.flash.put off (cells entry l.flatten) } := by
  induction l generalizing s off with
  | nil =>
    rw [flatten_nil, cells, map_nil, Cells.put_nil]
    exact .pure
  | cons x l ih =>
    rw [forall_mem_cons] at hl
    rw [flatten_cons] at *
    rw [length_append] at hoff
    refine (write_returns (by omega) (hG.head hl.1.2 hl.1.1)).bind ?_
    rw [cells_append, Cells.put_append, length_cells]
    exact ih (by omega) hl.2 (hG.tail hl.1.2)

theorem streams_eq (hblock : ∃ n ≤ 5, c.writeBlockSize = 2 ^ n) (addr : ℕ)
    (head data tail : List UInt8) (entry : Bool) : ∃ l,
    flashAlWrtStreams c addr head data tail entry = writeAll c entry (flashOffset c addr) l ∧
      Cut c (head ++ data ++ tail) l := by
  obtain ⟨n, hle, hn⟩ := hblock
  have hflat : [] ++ [head, data, tail].flatten = head ++ data ++ tail := by simp
  rw [← hflat]
  refine flashAlWrtLoop_eq _ ⟨n, hle, hn⟩ (hn ▸ Nat.two_pow_pos n) ?_
  simp only [flatten_cons, flatten_nil, length_append, length_cons, length_nil]
  omega

/-- The streams are written one after another in pieces of whole blocks, and the last block is filled
up. If the device is large enough, that is what is in the flash then. -/
theorem nvs_stream_write (c : Config) (hblock : ∃ n ≤ 5, c.writeBlockSize = 2 ^ n) (addr : ℕ)
    (head data tail : List UInt8) (entry : Bool) : ∃ l,
    flashAlWrtStreams c addr head data tail entry = writeAll c entry (flashOffset c addr) l ∧
    (∃ k < c.writeBlockSize, l.flatten = head ++ data ++ tail ++ replicate k c.eraseValue) ∧
    c.writeBlockSize ∣ l.flatten.length ∧
    (∀ pre x post, l = pre ++ x :: post → x ≠ [] ∧ c.writeBlockSize ∣ x.length ∧
      (c.writeBlockSize ∣ flashOffset c addr →
        c.writeBlockSize ∣ flashOffset c addr + pre.flatten.length)) ∧
    ∀ s, flashOffset c addr + l.flatten.length ≤ c.deviceSize →
      (flashAlWrtStreams c addr head data tail entry).Returns s (fun _ => True) ()
        { s with flash := s.flash.put (flashOffset c addr) (cells entry l.flatten) } := by
  obtain ⟨l, heq, hcut⟩ := streams_eq hblock addr head data tail entry
  refine ⟨l, heq, hcut.flatten, dvd_flatten hcut.blocks, fun pre x post hl => ?_, fun s hoff => ?_⟩
  · have hblocks := hcut.blocks
    rw [hl, forall_mem_append, forall_mem_cons] at hblocks
    exact ⟨hblocks.2.1.1, hblocks.2.1.2, fun hoff => Nat.dvd_add hoff (dvd_flatten hblocks.1)⟩
  · rw [heq]
    exact writeAll_returns hoff hcut.blocks fun _ _ _ _ _ _ _ => trivial

theorem nvs_stream_write_bytes : ∃ l : List (List UInt8),
    ∃ k < 4, l.flatten = [1] ++ [2, 3] ++ [4, 5] ++ replicate k 0xff :=
  (nvs_stream_write ⟨0, 64, 2, 4, 0xff, 64, 128, none⟩ ⟨2, by decide, rfl⟩ 0 [1] [2, 3] [4, 5]
    false).imp fun _ h => h.2.1

theorem base_add_le (hw : w < c.sectorCount) (hd : d ≤ c.sectorSize) (hc : c.Good) :
    base c w + d ≤ c.deviceSize := by
  have hmul : c.sectorSize * (w + 1) ≤ c.sectorSize * c.sectorCount := Nat.mul_le_mul_left _ hw
  have hdev := hc.device
  rw [mul_add] at hmul
  unfold base
  omega

theorem streams_returns (hc : c.Good) (hw : w < c.sectorCount) (hd : d < 2 ^ 16)
    (hsize : d + alSize c (head ++ data ++ tail).length ≤ c.sectorSize)
    (hG : Steps c s.flash (s.ateWra / 2 ^ 16) (base c w + d) entry (padded c (head ++ data ++ tail)) G) :
    (flashAlWrtStreams c (addrOf w d) head data tail entry).Returns s G ()
      { s with flash :=
          s.flash.put (base c w + d) (cells entry (padded c (head ++ data ++ tail))) } := by
  obtain ⟨l, heq, hcut⟩ := streams_eq hc.block (addrOf w d) head data tail entry
  have hoff := base_add_le hw hsize hc
  have hlen := length_padded hc (head ++ data ++ tail)
  rw [← hcut.eq_padded hc] at hG hlen ⊢
  rw [heq, offset_addrOf hd]
  exact writeAll_returns (by omega) hcut.blocks hG

theorem flashAlWrt_ate_returns (ate : Ate) (hc : c.Good) (hw : w < c.sectorCount) (ho : o < 2 ^ 16)
    (hsize : o + ateSize c ≤ c.sectorSize)
    (hG : G ⟨s.flash, s.flash.put (base c w + o) (cells true (padded c ate.bytes)), s.ateWra / 2 ^ 16,
      .write (base c w + o) (padded c ate.bytes) true⟩) :
    (flashAlWrt c (addrOf w o) ate.bytes true).Returns s G ()
      { s with flash := s.flash.put (base c w + o) (cells true (padded c ate.bytes)) } := by
  have hlen : (padded c ate.bytes).length = ateSize c := length_padded hc _
  by_cases hsmall : c.writeBlockSize ∣ sizeofAte
  · have hpad : padded c ate.bytes = ate.bytes := padded_of_dvd hc hsmall
    have hfull : alignDown c.writeBlockSize ate.bytes.length = ate.bytes.length := by
      rw [alignDown_eq hc.block, Ate.length_bytes, Nat.mod_eq_zero_of_dvd hsmall]
      rfl
    have hne : ate.bytes ≠ [] := by simp [Ate.bytes]
    rw [hpad] at hG ⊢ hlen
    rw [flashAlWrt, flashAlWrtStreams, offset_addrOf ho, flashAlWrtLoop]
    rw [if_pos rfl, flashAlWrtLoop]
    rw [if_neg hne, if_pos ⟨rfl, by rw [hfull]; exact length_pos_iff.2 hne⟩, hfull,
      take_length, drop_length]
    have hoff := base_add_le hw hsize hc
    refine (write_returns (by omega) hG).bind ?_
    exact .pure
  · -- a block has room for the entry, so the only step is the whole of it
    obtain ⟨n, -, hblock⟩ := hc.block
    have hlt : sizeofAte < c.writeBlockSize := by
      by_contra hle
      refine hsmall ?_
      rw [hblock] at hle ⊢
      refine pow_dvd_pow 2 (n := 3) ?_
      by_contra hgt
      have := Nat.pow_le_pow_right (show 0 < 2 by decide) (show 4 ≤ n by omega)
      unfold sizeofAte at hle
      omega
    have hsteps : Steps c s.flash (s.ateWra / 2 ^ 16) (base c w + o) true
        (padded c ([] ++ ate.bytes ++ [])) G := by
      rw [nil_append, append_nil]
      intro xs ys zs heq hxs hys hne
      have hle : (padded c ate.bytes).length ≤ c.writeBlockSize := by
        rw [hlen]
        exact alSize_le hc hlt.le (dvd_refl _)
      have hylen := Nat.le_of_dvd (length_pos_iff.2 hne) hys
      rw [heq, length_append, length_append] at hle
      obtain rfl : xs = [] := length_eq_zero_iff.1 (by omega)
      obtain rfl : zs = [] := length_eq_zero_iff.1 (by omega)
      rw [append_nil] at heq
      subst heq
      simpa [cells] using hG
    have := streams_returns hc hw ho
      (by rw [nil_append]; exact hsize) hsteps
    rwa [nil_append, append_nil] at this

theorem ateWrt_returns (ate : Ate) (hc : c.Good) (hw : w < c.sectorCount)
    (hate : s.ateWra = addrOf w o) (hA : ateSize c ≤ o) (hsize : o + ateSize c ≤ c.sectorSize)
    (hG : G (ateOp c s.flash w o ate)) :
    (flashAteWrt c ate).Returns s G ()
      { s with flash := putAte c s.flash w o ate, ateWra := addrOf w (o - ateSize c) } := by
  have hlt := hc.size_le
  have hpos := sizeofAte_le hc
  unfold sizeofAte at hpos
  refine .bind .get ?_
  rw [hate]
  have h := flashAlWrt_ate_returns (G := G) ate hc hw (by omega) hsize
    (by rwa [hate, addrOf_div (by omega)])
  have hand := h.andThen (g := fun fs => { fs with ateWra := sub32 fs.ateWra (ateSize c) })
  rwa [hate, sub32_addrOf (hw.trans hc.count_lt) (by omega) hA] at hand

theorem flashDataAlWrt_eq (head data : List UInt8) (crc : Bool) : ∃ tail,
    (head ++ if crc then payload c data else data) = head ++ data ++ tail ∧
    flashDataAlWrt c head data crc = (Logged.get >>= fun fs =>
      Logged.andThen (flashAlWrtStreams c fs.dataWra head data tail false) fun fs =>
        { fs with
          dataWra := add32 fs.dataWra (alSize c (head.length + data.length + tail.length)) }) := by
  refine ⟨_, ?_, rfl⟩
  unfold payload
  cases crc <;> cases c.dataCrc with
  | none => simp
  | some crc32 =>
    obtain rfl | hne := eq_or_ne data [] <;> simp [*]

theorem dataAlWrt_returns (head data : List UInt8) (crc : Bool) (hc : c.Good)
    (hw : w < c.sectorCount) (hdata : s.dataWra = addrOf w d)
    (hsize : d + alSize c (head ++ if crc then payload c data else data).length ≤ c.sectorSize)
    (hlt : d + alSize c (head ++ if crc then payload c data else data).length < 2 ^ 16)
    (hG : Steps c s.flash (s.ateWra / 2 ^ 16) (base c w + d) false
      (padded c (head ++ if crc then payload c data else data)) G) :
    (flashDataAlWrt c head data crc).Returns s G ()
      { s with
        flash := s.flash.put (base c w + d)
          (cells false (padded c (head ++ if crc then payload c data else data)))
        dataWra := addrOf w (d + alSize c (head ++ if crc then payload c data else data).length) } := by
  obtain ⟨tail, heq, hprog⟩ := flashDataAlWrt_eq head data crc
  rw [heq] at hsize hlt hG ⊢
  rw [hprog]
  refine .bind .get ?_
  rw [hdata]
  have h := (streams_returns hc hw (by omega) hsize hG).andThen (g := fun fs =>
    { fs with dataWra := add32 fs.dataWra (alSize c (head.length + data.length + tail.length)) })
  have hend : add32 s.dataWra (alSize c (head.length + data.length + tail.length)) =
      addrOf w (d + alSize c (head ++ data ++ tail).length) := by
    rw [← add32_addrOf (hw.trans hc.count_lt) hlt, hdata, length_append, length_append]
  rwa [hend] at h

end ZephyrRtos.Nvs
