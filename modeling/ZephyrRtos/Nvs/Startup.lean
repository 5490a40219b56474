import ZephyrRtos.Nvs.Locate
import ZephyrRtos.Nvs.Rounds

namespace ZephyrRtos.Nvs

open List Lib Sys LogStore

variable {c : Config} {f : Flash} {s : Fs} {w p o d n x : ℕ} {es last : List Entry}
  {hist : List (List Entry)} {V : (ℕ → List UInt8) → Prop} {Q K : Prop} {val : ℕ → List UInt8}

/-- In a sector that is not closed, nothing that was not written as an entry is taken for one. -/
def NoPhantom (c : Config) (f : Flash) : Prop :=
  ∀ w < c.sectorCount, NotClosed c f w → ∀ y ≤ top c, ateSize c ∣ y →
    (f (base c w + y)).entry = false →
      ateValid (addrOf w y) (Ate.ofBytes (f.bytes (base c w + y) sizeofAte)) = false

theorem Front.none_of_noPhantom (hc : c.Good) (hw : w < c.sectorCount) (h : Front c f w es p d o)
    (hf : NoPhantom c f) : ∀ y, p ≤ y → y ≤ o → ateSize c ∣ y →
      ateValid (addrOf w y) (Ate.ofBytes (f.bytes (base c w + y) sizeofAte)) = false := by
  intro y _ hy hdvd
  have hpos := sizeofAte_le hc
  unfold sizeofAte at hpos
  exact hf w hw (h.not_closed hc) y (hy.trans h.slots.le_top) hdvd (h.plain y (by omega))

theorem Front.none_of_clean (hc : c.Good) (h : Front c f w es p d o) (hclean : d = alSize c p) :
    ∀ y, p ≤ y → y ≤ o → ateSize c ∣ y →
      ateValid (addrOf w y) (Ate.ofBytes (f.bytes (base c w + y) sizeofAte)) = false := by
  intro y hp hy hdvd
  have hpos := sizeofAte_le hc
  have hle := alSize_le hc hp (dvd_trans (dvd_ateSize hc) hdvd)
  rw [h.erased.bytes (by omega) (by omega)]
  exact ateValid_erased hc _

theorem Front.skipData (hc : c.Good) (hw : w < c.sectorCount) (h : Front c f w es p d o)
    (hdo : d ≤ o) (hx : x ≤ d) (hdvd : c.writeBlockSize ∣ x) (hn : d - x < n) :
    ∃ d', skipData c f (addrOf w o) n (addrOf w x) = .ok (addrOf w d') ∧ x ≤ d' ∧ d' ≤ d ∧
      c.writeBlockSize ∣ d' ∧ Erased c f w d' (o + ateSize c) := by
  have hblock := block_pos hc
  have htop := h.slots.le_top
  unfold top at htop
  induction n generalizing x with
  | zero => omega
  | succ n ih =>
    rw [Nvs.skipData]
    by_cases hlt : x < o
    · have hsub : addrOf w o - addrOf w x = o - x := by
        unfold addrOf
        omega
      rw [if_pos (by unfold addrOf; omega), hsub, flashCmpConst, flashCmp_eq hc f hw
        (by rw [length_replicate]) (by rw [length_replicate]; omega), ok_bind,
        length_replicate]
      by_cases hblank : f.bytes (base c w + x) (o - x) = replicate (o - x) c.eraseValue
      · rw [if_pos (decide_eq_true hblank)]
        refine ⟨x, rfl, le_rfl, hx, hdvd, fun a h1 h2 => ?_⟩
        by_cases ha : a < o
        · obtain ⟨k, rfl⟩ := Nat.exists_eq_add_of_le h1
          have hval : (f (base c w + (x + k))).val = c.eraseValue := by
            have hget : (f.bytes (base c w + x) (o - x))[k]? = some c.eraseValue := by
              rw [hblank, getElem?_replicate, if_pos (by omega)]
            rw [getElem?_eq_getElem (by rw [Flash.length_bytes]; omega)] at hget
            injection hget with hget
            simp only [Flash.bytes, getElem_map, Cells.getElem_slice, add_assoc] at hget
            exact hget
          have hplain := h.plain (x + k) (by omega)
          rw [erasedCell, ← hval, ← hplain]
        · exact h.erased a (by omega) h2
      · rw [if_neg (by rwa [decide_eq_true_iff])]
        have hne : x ≠ d := by
          rintro rfl
          exact hblank (h.erased.bytes le_rfl (by omega))
        have hle : x + c.writeBlockSize ≤ d := by
          have hsub := Nat.le_of_dvd (by omega) (Nat.dvd_sub h.dvd hdvd)
          omega
        obtain ⟨d', heq, h1, h2⟩ := ih hle (Nat.dvd_add hdvd (dvd_refl _)) (by omega)
        refine ⟨d', ?_, by omega, h2⟩
        rwa [addrOf_add]
    · rw [if_neg (by unfold addrOf; omega)]
      obtain rfl : x = d := by omega
      exact ⟨x, rfl, le_rfl, le_rfl, hdvd, h.erased⟩

theorem Slots.of_top (hc : c.Good) (h : Slots c f w es p o) (ho : o = top c) : es = [] ∧ p = 0 := by
  have hoff := h.offset
  have hpos := sizeofAte_le hc
  cases h with
  | nil => exact ⟨rfl, rfl⟩
  | cons _ _ hfits _ =>
    rw [length_cons, add_mul] at hoff
    unfold sizeofAte at hpos
    omega

structure Located (c : Config) (s : Fs) (w : ℕ) (es : List Entry) (hist : List (List Entry))
    (p d o : ℕ) : Prop where
  idle : Idle c s.flash w es hist p d o
  ateWra : s.ateWra = addrOf w o
  dataWra : s.dataWra = addrOf w d

theorem Idle.startupData (hc : c.Good) (h : Idle c s.flash w es hist p d o)
    (hate : s.ateWra = addrOf w o) (hdata : s.dataWra = addrOf w (alSize c p))
    (hR : Content Q (es :: hist) val) (hV : V val) :
    ∃ t d', (startupData c).Returns s (OpOk c V Q) () t ∧ Located c t w es hist p d' o ∧
      t.ready = s.ready ∧ (d = alSize c p → d' = alSize c p) := by
  have hfront := h.opened.front
  have hlt := h.lt
  have hsize := hc.size_le
  have hfour := hc.four
  have hpos := sizeofAte_le hc
  have htop : top c + 2 * ateSize c = c.sectorSize := by
    unfold top
    omega
  have htop' := hfront.slots.le_top
  have hal := alSize_le hc h.opened.le hfront.dvd
  unfold sizeofAte at hpos
  -- the address that is found
  obtain ⟨d', hskip, h1, h2, hdvd, herased, hlast⟩ : ∃ d',
      skipData c s.flash (addrOf w o) (c.sectorSize + 1) (addrOf w (alSize c p)) =
        .ok (addrOf w d') ∧ alSize c p ≤ d' ∧ d' ≤ d ∧ c.writeBlockSize ∣ d' ∧
        Erased c s.flash w d' (o + ateSize c) ∧ (o < d' → d' = d) := by
    by_cases hdo : d ≤ o
    · obtain ⟨d', hskip, h1, h2, hdvd, herased⟩ := hfront.skipData (n := c.sectorSize + 1) hc hlt hdo
        hal (dvd_alSize hc p) (by omega)
      exact ⟨d', hskip, h1, h2, hdvd, herased, fun _ => by omega⟩
    obtain ⟨e, tl, rfl, he, hoff⟩ := hfront.last (by omega)
    have hpd : p = d := by
      cases hfront.slots with
      | cons _ _ _ _ => rw [Entry.fin, Entry.len_eq_zero.2 he, hoff, add_zero]
    have hald : alSize c p = d := by rw [hpd, alSize_of_dvd hc hfront.dvd]
    refine ⟨d, ?_, by omega, le_rfl, hfront.dvd, hfront.erased, fun _ => rfl⟩
    rw [hald, Nvs.skipData, if_neg (by unfold addrOf; omega)]
    rfl
  have hidle : Idle c s.flash w es hist p d' o := by
    refine ⟨hlt, ⟨⟨hfront.slots, hdvd, fun hod => ?_, fun hnil => ?_, herased, hfront.notClosed,
      hfront.plain⟩, h.opened.stored, ?_⟩, h.ring, h.space, h.first⟩
    · obtain rfl := hlast hod
      exact hfront.last hod
    · have := hfront.empty hnil
      omega
    · have := le_alSize hc p
      omega
  by_cases hcond : addrOf w o + 2 * ateSize c = c.sectorSize ∧ addrOf w d' ≠ addrSect (addrOf w o)
  · -- what was written to the first sector without an entry is erased
    obtain ⟨rfl, rfl⟩ : w = 0 ∧ o = top c := by
      unfold addrOf at hcond
      omega
    obtain ⟨rfl, rfl⟩ := hfront.slots.of_top hc rfl
    have hsame : Cells.SameOff s.flash (s.flash.fill (base c 0) c.sectorSize (erasedCell c)) (base c 0)
        (base c 0 + c.sectorSize) := Cells.sameOff_fill
    have hspace := h.space
    have hidle' : Idle c (s.flash.fill (base c 0) c.sectorSize (erasedCell c)) 0 [] hist 0 0 (top c) :=
      ⟨hlt, Open.nil hc (Erased.fill s.flash), h.ring.congr hc (by omega) hsame, h.space,
        fun _ => .inl rfl⟩
    refine ⟨{ s with
      flash := s.flash.fill (base c 0) c.sectorSize (erasedCell c)
      dataWra := addrOf 0 0 }, 0, ?_, ⟨hidle', hate, rfl⟩, rfl, fun _ => (alSize_zero hc).symm⟩
    refine Logged.Returns.bind .get (Logged.Returns.bind (.reads (by rw [hate, hdata]; exact hskip))
      (Logged.Returns.bind .modify ?_))
    rw [hate, if_pos hcond]
    refine Logged.Returns.bind (erase_returns hc hlt (by omega) ?_) ?_
    · rw [addrOf_div (by omega)]
      exact ⟨trivial, ⟨val, hV, h.shows hR⟩, ⟨val, hV, hidle'.shows hR⟩, .inl (.inl rfl)⟩
    have hmod := Logged.Returns.modify (ε := Errno) (G := OpOk c V Q) (s := { s with
      flash := s.flash.fill (base c 0) c.sectorSize (erasedCell c)
      dataWra := addrOf 0 d' }) (g := fun fs => { fs with dataWra := addrSect fs.ateWra })
    rwa [hate, addrSect_addrOf (by omega)] at hmod
  · refine ⟨{ s with dataWra := addrOf w d' }, d', ?_, ⟨hidle, hate, rfl⟩, rfl, fun hclean => by omega⟩
    refine Logged.Returns.bind .get (Logged.Returns.bind (.reads (by rw [hate, hdata]; exact hskip))
      (Logged.Returns.bind .modify ?_))
    rw [hate, if_neg hcond]
    exact .pure

theorem bytes_of_replicate (h : f.bytes a n = replicate n b) (hik : i + k ≤ n) :
    f.bytes (a + i) k = replicate k b := by
  obtain ⟨m, rfl⟩ := Nat.exists_eq_add_of_le hik
  rw [add_assoc, Flash.bytes_add, Flash.bytes_add, replicate_add, replicate_add] at h
  have h' := (append_inj h (by rw [Flash.length_bytes, length_replicate])).2
  exact (append_inj h' (by rw [Flash.length_bytes, length_replicate])).1

theorem flashCmpConst_next (hc : c.Good) (hw : w < c.sectorCount) (ho : o < 2 ^ 16) (f : Flash) :
    flashCmpConst c f (sectorAdvance c (addrSect (addrOf w o))) c.eraseValue c.sectorSize =
      .ok (decide (f.bytes (base c (next c w)) c.sectorSize =
        replicate c.sectorSize c.eraseValue)) := by
  rw [addrSect_addrOf ho, advance_addrOf hc.count_lt hw (Nat.two_pow_pos 16), flashCmpConst,
    flashCmp_eq hc f (next_lt hw) (by rw [length_replicate])
      (by rw [length_replicate]; omega), length_replicate, add_zero]

theorem Idle.startup (hc : c.Good) (h : Idle c s.flash w es hist p d o)
    (hnone : ∀ y, p ≤ y → y ≤ o → ateSize c ∣ y →
      ateValid (addrOf w y) (Ate.ofBytes (s.flash.bytes (base c w + y) sizeofAte)) = false)
    (hR : Content Q (es :: hist) val) (hV : V val) (hclean : d = alSize c p ∨ K) :
    ∃ t es' p' d' o', (startup c).Returns s (OpOk c V Q) () t ∧ t.ready = s.ready ∧
      Stable c t w es' hist p' d' o' val Q K := by
  have hlt := h.lt
  obtain ⟨-, hpos, -, hsize, hend⟩ := hc.sizes
  have htop' := h.opened.front.slots.le_top
  have hlocate := h.opened.front.locate hc hlt h.ring h.first hnone
  have hblank := flashCmpConst_next hc hlt (show o < 2 ^ 16 by omega) s.flash
  rw [decide_eq_true (by
    have := h.next_erased.bytes (n := c.sectorSize) le_rfl (by omega)
    exact this)] at hblank
  obtain ⟨t₁, d₁, hret₁, hloc, hready₁, hclean₁⟩ :=
    Idle.startupData (s := { s with
      ateWra := addrOf w o
      dataWra := addrOf w (alSize c p) }) hc h rfl rfl hR hV
  have hstart : ∀ {t : Fs} {q : Prog Unit}, q.Returns t₁ (OpOk c V Q) () t →
      (∀ fs : Fs, fs = t₁ → q = if addrOffs fs.ateWra = c.sectorSize - 2 * ateSize c then
        addGcDoneAte c else pure ()) → (Nvs.startup c).Returns s (OpOk c V Q) () t := by
    intro t q hq heq
    refine .bind (.reads hlocate) (.bind .modify
      (.bind (.reads hblank) ?_))
    refine .bind hret₁ (.bind .get ?_)
    rwa [← heq t₁ rfl]
  obtain rfl | hne := eq_or_ne es []
  · -- an empty sector gets an entry
    obtain rfl : o = top c := by simpa using h.opened.front.slots.offset
    have hfits := mark_fits hc hloc.idle.opened.front.dvd (hloc.idle.opened.front.empty rfl)
    have hle := hloc.idle.opened.front.empty rfl
    have hidle := hloc.idle.put_ate hc (by omega) hloc.idle.opened.le hfits
      mark_fin.le fun hlast => by omega (by rw [mark_len]; exact payload_nil.symm)
    rw [mark_fin] at hidle
    have hop : OpOk c V Q _ := hloc.idle.opened.front.ate_ok hc (by omega) ((mark d₁).ate c)
      (hloc.idle.shows hR) hV (hidle.shows hR.mark) hV
    refine ⟨_, [mark d₁], d₁, d₁, top c - ateSize c, hstart (addGcDoneAte_returns hc hlt hloc.ateWra
      hloc.dataWra (by omega) (by omega) (by omega) hop) ?_, hready₁,
      ⟨hidle, rfl, hloc.dataWra, cons_ne_nil _ _⟩, hR.mark,
      .inl (alSize_of_dvd hc hloc.idle.opened.front.dvd).symm⟩
    rintro _ rfl
    rw [hloc.ateWra, addrOffs_addrOf (by omega), if_pos (by omega)]
  · have hlt' : o < top c := by
      refine lt_of_le_of_ne htop' fun heq => hne ?_
      exact (h.opened.front.slots.of_top hc heq).1
    refine ⟨t₁, es, p, d₁, o, hstart .pure ?_, hready₁,
      ⟨hloc.idle, hloc.ateWra, hloc.dataWra, hne⟩, hR, hclean.imp_left hclean₁⟩
    rintro _ rfl
    rw [hloc.ateWra, addrOffs_addrOf (by omega), if_neg (by omega)]

theorem startup_of_full (hc : c.Good) (hw : w < c.sectorCount) (h : Front c s.flash w es p d o)
    (hring : Ring c s.flash w hist) (hfull : hist.length + 1 = c.sectorCount)
    (hnone : ∀ y, p ≤ y → y ≤ o → ateSize c ∣ y →
      ateValid (addrOf w y) (Ate.ofBytes (s.flash.bytes (base c w + y) sizeofAte)) = false)
    (hgc : (startupGc c).Returns { s with
      ateWra := addrOf w o
      dataWra := addrOf w (alSize c p) } (OpOk c V Q) () t)
    (hend : addrOffs t.ateWra ≠ c.sectorSize - 2 * ateSize c) :
    (startup c).Returns s (OpOk c V Q) () t := by
  have htwo := hc.two
  have hsize := hc.size_le
  have hfour := hc.four
  have hpos := sizeofAte_le hc
  have htop := h.slots.le_top
  unfold top at htop
  have hlocate := h.locate hc hw hring (fun hnil => by
    rw [hnil, length_nil] at hfull
    omega) hnone
  have hblank := flashCmpConst_next hc hw (show o < 2 ^ 16 by unfold sizeofAte at hpos; omega) s.flash
  obtain ⟨p', o', hclosed⟩ := hring.closed (c.sectorCount - 2) (by omega)
  rw [show c.sectorCount - 2 + 1 = c.sectorCount - 1 by omega, back_last hw] at hclosed
  rw [decide_eq_false (fun hall => hclosed.not_notClosed (bytes_of_replicate hall (by omega)))] at hblank
  refine .bind (.reads hlocate) (.bind .modify
    (.bind (.reads hblank) ?_))
  refine .bind hgc (.bind .get ?_)
  rw [if_neg hend]
  exact .pure

theorem Mounted.not_empty (hc : c.Good) (h : Mounted c s w es hist p d o) :
    addrOffs s.ateWra ≠ c.sectorSize - 2 * ateSize c := by
  obtain ⟨-, hpos, -, hsize, hend⟩ := hc.sizes
  have htop := h.idle.opened.front.slots.le_top
  rw [h.ateWra, addrOffs_addrOf (by omega)]
  exact fun heq => h.ne_nil (h.idle.opened.front.slots.of_top hc heq).1

theorem Front.marker (hc : c.Good) (hw : w < c.sectorCount) (h : Front c s.flash w es p d o) :
    ∃ b, gcDoneMarker c s.flash (c.sectorSize + 1) (add32 (addrOf w o) (ateSize c)) = .ok b ∧
      (b = true ↔ ∃ e ∈ es, e.IsMark) := by
  obtain ⟨-, hpos, -, hsize, hend⟩ := hc.sizes
  have htop := h.slots.le_top
  have hlen := h.slots.length_lt hc
  rw [add32_addrOf (hw.trans hc.count_lt) (by omega)]
  exact h.slots.gcDoneMarker hc hw (by omega)

theorem Finished.startup (hc : c.Good) (h : Finished c s.flash w es (hist ++ [last]) p d o)
    (hR : Content Q (es :: hist) val) (hV : V val) :
    ∃ t, (startup c).Returns s (OpOk c V Q) () t ∧ t.ready = s.ready ∧
      Stable c t w es hist p d o val Q K := by
  have hlt := h.lt
  obtain ⟨-, hpos, -, hsize, hend⟩ := hc.sizes
  have htop := h.opened.front.slots.le_top
  obtain ⟨m, hm, hmark⟩ := h.marked
  have hidle := h.opened.erase hc hlt h.ring h.full (ne_nil_of_mem hm)
  have hmounted : Mounted c { s with
      flash := s.flash.fill (base c (next c w)) c.sectorSize (erasedCell c)
      ateWra := addrOf w o
      dataWra := addrOf w (alSize c p) } w es hist p d o :=
    ⟨hidle, rfl, by rw [← h.clean], ne_nil_of_mem hm⟩
  obtain ⟨b, hmarker, hb⟩ := h.opened.front.marker hc hlt
  obtain rfl := hb.2 h.marked
  refine ⟨_, startup_of_full hc hlt h.opened.front h.ring h.full
    (h.opened.front.none_of_clean hc h.clean) ?_ (hmounted.not_empty hc), rfl, hmounted, hR,
    .inl h.clean⟩
  refine .bind .get (.bind (.reads hmarker) ?_)
  rw [addrSect_addrOf (by omega), advance_addrOf hc.count_lt hlt (Nat.two_pow_pos 16)]
  refine erase_returns hc (next_lt hlt) (Nat.two_pow_pos 16) ?_
  rw [addrOf_div (by omega)]
  exact ⟨trivial, ⟨val, hV, h.shows hR⟩, ⟨val, hV, hidle.shows hR⟩,
    .inl (.inr (.inr (h.opened.front.slots.marked hc hm hmark)))⟩

theorem Collecting.startup (hc : c.Good) (h : Collecting c s.flash w es (hist ++ [last]) p d o)
    (hnone : ∀ y, p ≤ y → y ≤ o → ateSize c ∣ y →
      ateValid (addrOf w y) (Ate.ofBytes (s.flash.bytes (base c w + y) sizeofAte)) = false)
    (hR : Content Q (hist ++ [last]) val) (hV : V val) :
    ∃ t es' p' d' o', (startup c).Returns s (OpOk c V Q) () t ∧ t.ready = s.ready ∧
      Stable c t w es' hist p' d' o' val Q K := by
  have hlt := h.lt
  obtain ⟨-, hpos, -, hsize, hend⟩ := hc.sizes
  have hfull := h.full
  have htop := h.front.slots.le_top
  obtain ⟨b, hmarker, hb⟩ := h.front.marker hc hlt
  obtain rfl : b = false := by
    rw [Bool.eq_false_iff]
    rintro rfl
    obtain ⟨m, hm, hmark⟩ := hb.1 rfl
    exact h.unmarked m hm hmark.1
  have hsame : Cells.SameOff s.flash (s.flash.fill (base c w) c.sectorSize (erasedCell c)) (base c w)
      (base c w + c.sectorSize) := Cells.sameOff_fill
  have hring := h.ring.congr hc (by omega) hsame
  have hcoll : Collecting c (s.flash.fill (base c w) c.sectorSize (erasedCell c)) w []
      (hist ++ [last]) 0 0 (top c) :=
    ⟨hlt, (Open.nil hc (.fill s.flash)).front, hring, h.full, nofun⟩
  obtain ⟨b, t, es', p', d', o', val', hgc, hcollected, hb'⟩ := Collecting.gc (s := { s with
    flash := s.flash.fill (base c w) c.sectorSize (erasedCell c)
    ateWra := addrOf w (top c)
    dataWra := addrOf w 0 }) none hc hcoll rfl rfl hR hV
      (fun _ h => nomatch h) fun _ h => nomatch h
  obtain rfl : val' = val := by
    obtain ⟨-, h, -⟩ | ⟨_, h, -⟩ := hb'
    · exact h
    · exact nomatch h
  refine ⟨t, es', p', d', o', startup_of_full hc hlt h.front h.ring h.full hnone ?_
    (hcollected.mounted.not_empty hc), hcollected.ready, hcollected.mounted, hcollected.content,
    .inl hcollected.clean⟩
  · refine .bind .get (.bind (.reads hmarker) ?_)
    refine .bind (erase_returns hc hlt (by omega) ?_)
      (.bind .modify ?_)
    · rw [addrOf_div (by omega)]
      exact ⟨trivial, ⟨_, hV, h.shows hR⟩, ⟨_, hV, hcoll.shows hR⟩, .inl (.inl rfl)⟩
    · rw [addrSect_addrOf (by omega), addrOf_add, zero_add]
      exact hgc.bind .pure

theorem mount_returns (hc : c.Good) (h : (startup c).Returns s G () t) :
    (mount c).Returns s G () { t with ready := true } := by
  have hblock := block_le hc
  have hpos := block_pos hc
  obtain ⟨-, hpos, hfour, hsize, -⟩ := hc.sizes
  have htwo := hc.two
  have hpage := hc.page
  unfold Nvs.mount
  rw [if_neg (by unfold nvsBlockSize; omega), if_neg (by unfold maxSectorSize; omega),
    if_neg (by omega), if_neg (by omega)]
  exact h.bind .modify

theorem Idle.mount (hc : c.Good) (h : Idle c s.flash w es hist p d o)
    (hR : Content Q (es :: hist) val) (hV : V val) (hclean : d = alSize c p ∨ K)
    (hK : K → NoPhantom c s.flash) :
    ∃ t es' p' d' o', (mount c).Returns s (OpOk c V Q) () t ∧ t.ready = true ∧
      Stable c t w es' hist p' d' o' val Q K := by
  have hnone : ∀ y, p ≤ y → y ≤ o → ateSize c ∣ y →
      ateValid (addrOf w y) (.ofBytes (s.flash.bytes (base c w + y) sizeofAte)) = false := by
    obtain hclean | hk := hclean
    · exact h.opened.front.none_of_clean hc hclean
    · exact h.opened.front.none_of_noPhantom hc h.lt (hK hk)
  obtain ⟨t, es', p', d', o', hret, -, hstable⟩ := h.startup hc hnone hR hV hclean
  exact ⟨_, es', p', d', o', mount_returns hc hret, rfl,
    ⟨hstable.mounted.idle, hstable.mounted.ateWra, hstable.mounted.dataWra, hstable.mounted.ne_nil⟩,
    hstable.content, hstable.clean⟩

theorem Shows.mount (hc : c.Good) (h : Shows c Q s.flash val) (hV : V val)
    (hnone : NoPhantom c s.flash) :
    ∃ t w es hist p d o, (mount c).Returns s (OpOk c V Q) () t ∧ t.ready = true ∧
      Stable c t w es hist p d o val Q True := by
  obtain ⟨R, hrec, hR⟩ := h
  cases hrec with
  | @idle w es hist p d o h =>
    obtain ⟨t, es', p', d', o', hret, hready, hstable⟩ :=
      h.mount hc hR hV (.inr trivial) fun _ => hnone
    exact ⟨t, w, es', hist, p', d', o', hret, hready, hstable⟩
  | @collecting w es _ p d o h =>
    obtain rfl | ⟨hist', last, rfl⟩ := eq_nil_or_concat' R
    · have hfull := h.full
      have htwo := hc.two
      rw [length_nil] at hfull
      omega
    obtain ⟨t, es', p', d', o', hret, -, hstable⟩ := h.startup hc
      (h.front.none_of_noPhantom hc h.lt hnone) hR hV
    exact ⟨_, w, es', hist', p', d', o', mount_returns hc hret, rfl,
      ⟨hstable.mounted.idle, hstable.mounted.ateWra, hstable.mounted.dataWra,
        hstable.mounted.ne_nil⟩, hstable.content, hstable.clean⟩
  | @finished w es hist p d o h =>
    obtain rfl | ⟨hist', last, rfl⟩ := eq_nil_or_concat' hist
    · have hfull := h.full
      have htwo := hc.two
      rw [length_nil] at hfull
      omega
    rw [dropLast_concat] at hR
    obtain ⟨t, hret, -, hstable⟩ := h.startup hc hR hV
    exact ⟨_, w, es, hist', p, d, o, mount_returns hc hret, rfl,
      ⟨hstable.mounted.idle, hstable.mounted.ateWra, hstable.mounted.dataWra,
        hstable.mounted.ne_nil⟩, hstable.content, hstable.clean⟩

end ZephyrRtos.Nvs
