import ZephyrRtos.Nvs.Rounds

namespace ZephyrRtos.Nvs

open List hiding lookup lookup_cons

open Function Lib Sys LogStore

variable {c : Config} {s : Fs} {w p o d id n : ℕ} {data : List UInt8} {es : List Entry}
  {hist : List (List Entry)} {V : (ℕ → List UInt8) → Prop} {Q K : Prop} {val : ℕ → List UInt8}

theorem Stable.stored (h : Stable c s w es hist p d o val Q K) :
    ∀ x ∈ slotsOf c w es ++ ringSlots c w 1 hist, Holds c s.flash x := by
  have hspace := h.mounted.idle.space
  intro x hx
  obtain hx | hx := mem_append.1 hx
  · exact h.mounted.idle.opened.front.slots.holds h.mounted.idle.lt h.mounted.idle.opened.stored x hx
  · exact ringSlots_holds h.mounted.idle.lt (by omega)
      (fun j hj => by simpa [add_comm] using h.mounted.idle.ring.closed j hj) x hx

theorem Stable.listed (hc : c.Good) (h : Stable c s w es hist p d o val Q K)
    (hstray : stray c s = false) : Listed c s (slotsOf c w es ++ ringSlots c w 1 hist) := by
  have hspace := h.mounted.idle.space
  exact h.mounted.idle.opened.front.listed hc h.mounted.idle.lt h.mounted.idle.ring (by omega)
    h.mounted.ateWra hstray (.inl h.mounted.ne_nil)

theorem map_snd_slots :
    (slotsOf c w es ++ ringSlots c w 1 hist).map Prod.snd = es ++ hist.flatten := by
  rw [map_append, map_snd_slotsOf, map_snd_ringSlots]

section

variable (hc : c.Good) (h : Stable c s w es hist p d o val Q K) (hstray : stray c s = false)
include hc h hstray

theorem Stable.unchanged (id : ℕ) (data : List UInt8) :
    unchanged c s id data = .ok (decide (val id = data)) := by
  rw [(h.listed hc hstray).unchanged hc h.stored id data, map_snd_slots, ← flatten_cons, h.content.value]

theorem Stable.readHist (hready : s.ready = true) (hlen : len ≤ c.sectorSize - 2 * ateSize c)
    (id k : ℕ) : readHist c s id len k = histResult id len k (es ++ hist.flatten) := by
  rw [(h.listed hc hstray).readHist hc h.stored hready hlen, map_snd_slots]

end

theorem Content.write (o : ℕ) (data : List UInt8) (h : Content Q (es :: hist) val) (hid : id < 0xFFFF)
    (hne : es ≠ []) : Content Q ((⟨id, o, data⟩ :: es) :: hist) (update val id data) where
  marks := h.marks.cons fun heq => absurd heq hid.ne
  value id' := by
    rw [flatten_cons, cons_append, Nvs.value, lookup_cons]
    split
    next heq =>
      subst heq
      rw [update_self]
    next hne =>
      rw [update_of_ne fun heq => hne heq.symm]
      exact h.value id'
  tidy x hx hx' := by
    obtain rfl | hx := mem_cons.1 hx
    · obtain ⟨m, hm, hmark⟩ | hQ := h.tidy es mem_cons_self hne
      · exact .inl ⟨m, mem_cons_of_mem _ hm, hmark⟩
      · exact .inr hQ
    · exact h.tidy x (mem_cons_of_mem _ hx) hx'

theorem Stable.wrtEntry (hc : c.Good) (h : Stable c s w es hist p d o val Q K) (hV : V val)
    (hpe : Request c V val ⟨id, data⟩) (hdo : d ≤ o) (hA : ateSize c ≤ o)
    (hroom : data ≠ [] → d + alSize c (payload c data).length + ateSize c ≤ o) :
    ∃ t p' d', (flashWrtEntry c id data).Returns s (OpOk c V Q) () t ∧ t.ready = s.ready ∧
      Stable c t w (⟨id, d, data⟩ :: es) hist p' d' (o - ateSize c) (update val id data)
        Q K := by
  have hidle := h.mounted.idle
  have hlt := hidle.lt
  have htop := hidle.opened.front.slots.le_top
  obtain ⟨hate, hpos, hfour, hsize, hend⟩ := hc.sizes
  have hid : id < 0xFFFF := hpe.ok.1
  obtain ⟨L, hL⟩ : ∃ L, L = (payload c data).length := ⟨_, rfl⟩
  have hle := le_alSize hc L
  have hroom' : d + alSize c L ≤ o ∧ (data ≠ [] → d + alSize c L + ateSize c ≤ o) := by
    refine ⟨?_, fun hne => hL ▸ hroom hne⟩
    obtain rfl | hne := eq_or_ne data []
    · rwa [hL, payload_nil, length_nil, alSize_zero hc]
    · have := hL ▸ hroom hne
      omega
  have hlen := length_padded hc (payload c data)
  rw [← hL] at hlen
  have hdvd : c.writeBlockSize ∣ (padded c (payload c data)).length := hlen ▸ dvd_alSize hc _
  have hdiv : s.ateWra / 2 ^ 16 = w := by rw [h.mounted.ateWra, addrOf_div (by omega)]
  -- the data
  have hsteps : Steps c s.flash (s.ateWra / 2 ^ 16) (base c w + d) false (padded c (payload c data))
      (OpOk c V Q) := by
    rw [hdiv]
    refine hidle.opened.front.steps hc (by omega) fun xs hxs hle => ⟨val, hV, ?_⟩
    exact (hidle.put_data hc hxs (by omega) fun hnil => absurd hnil h.mounted.ne_nil).shows
      h.content
  have hidle' := hidle.put_data hc hdvd (by omega) fun hnil => absurd hnil h.mounted.ne_nil
  rw [hlen] at hidle'
  have hdata : Flash.bytes (s.flash.put (base c w + d) (cells false (padded c (payload c data))))
      (base c w + d) L = payload c data := hL ▸ bytes_put_padded ..
  -- the entry
  have hfin : Entry.fin c ⟨id, d, data⟩ = d + L := by rw [hL]; rfl
  have hal : alSize c (d + L) = d + alSize c L := alSize_add hc hidle.opened.front.dvd
  have hfits : Entry.Fits c ⟨id, d, data⟩ o := by
    refine ⟨hid.trans (by decide), hA, by rw [hfin]; omega, fun hor => ?_⟩
    rw [hfin, hal]
    refine hroom'.2 ?_
    obtain hne | hmark := hor
    · exact hne
    · exact absurd hmark.1 hid.ne
  have hidle'' := hidle'.put_ate hc (e := ⟨id, d, data⟩) hroom'.1 hidle.opened.le hfits
    (by rw [hfin]; omega) (fun hlast => by
      obtain rfl | hne := eq_or_ne data []
      · refine ⟨rfl, ?_⟩
        rw [hL, payload_nil, length_nil, alSize_zero hc]
        rfl
      · have := hroom'.2 hne
        omega) (by rw [show Entry.len c ⟨id, d, data⟩ = L from hL.symm]; exact hdata)
  have hR := h.content.write d data hid h.mounted.ne_nil
  have hop : OpOk c V Q _ := hidle'.opened.front.ate_ok hc hroom'.1 (Entry.ate c ⟨id, d, data⟩)
    (hidle'.shows h.content) hV (hidle''.shows hR) hpe.new
  have hate : ateCrc8Update (.mk id (addrOffs s.dataWra) (dataLenWithCrc c data.length) 0xff 0) =
      Entry.ate c ⟨id, d, data⟩ := by
    rw [h.mounted.dataWra, addrOffs_addrOf (by omega), dataLenWithCrc_eq hpe.ok.2]
    rfl
  refine ⟨{ s with
    flash := putAte c (s.flash.put (base c w + d) (cells false (padded c (payload c data)))) w o
      (Entry.ate c ⟨id, d, data⟩)
    ateWra := addrOf w (o - ateSize c)
    dataWra := addrOf w (d + alSize c L) }, _, _, .bind .get ?_, rfl,
    ⟨hidle'', rfl, rfl, cons_ne_nil _ _⟩, hR, .inl ?_⟩
  · dsimp only
    rw [hate]
    have hwrt := dataAlWrt_returns (s := s) (G := OpOk c V Q) [] data true hc hlt
      h.mounted.dataWra
    simp only [if_true, nil_append, ← hL] at hwrt
    refine (hwrt (by omega) (by omega) hsteps).bind (ateWrt_returns _ hc hlt ?_ hA (by omega) hop)
    exact h.mounted.ateWra
  · rw [hfin, hal]

/-- A call that returns with the new data, or that fails and leaves the old. -/
def Settles (c : Config) (m : Prog ℕ) (s : Fs) (V : (ℕ → List UInt8) → Prop) (Q K : Prop)
    (val val' : ℕ → List UInt8) (errs : Errno → Prop) : Prop :=
  ∃ t w es hist p d o, t.ready = s.ready ∧
    ((∃ n, m.Returns s (OpOk c V Q) n t) ∧ Stable c t w es hist p d o val' Q K ∨
      (∃ e, errs e ∧ m.Fails s (OpOk c V Q) e t) ∧ Stable c t w es hist p d o val Q K ∧
        stray c t = false)

section

variable (hc : c.Good) (h : Stable c s w es hist p d o val Q K)
include hc h

theorem Stable.writeLoop (hstray : stray c s = false) (hV : V val)
    (hpe : Request c V val ⟨id, data⟩) (hlen : data.length < 2 ^ 16)
    (hcalm : Calm c ⟨id, data⟩ (es :: hist) Q)
    (hreq : required = if data = [] then 0 else alSize c (payload c data).length + ateSize c) :
    Settles c (writeLoop c id data required n) s V Q K val (update val id data)
      (· = .nospc) := by
  obtain ⟨-, hpos, -, hsize, hend⟩ := hc.sizes
  induction n generalizing s w es hist p d o with
  | zero => exact ⟨s, w, es, hist, p, d, o, rfl, .inr ⟨⟨_, rfl, .throw⟩, h, hstray⟩⟩
  | succ n ih =>
    have htop := h.mounted.idle.opened.front.slots.le_top
    have hdvd := h.mounted.idle.opened.front.slots.dvd hc
    by_cases hcond : s.ateWra ≥ s.dataWra + required ∧ addrOffs s.ateWra ≠ 0
    · -- there is space in the sector
      have hcond' := hcond
      rw [h.mounted.ateWra, h.mounted.dataWra, addrOffs_addrOf (by omega)] at hcond'
      obtain ⟨hle, hne⟩ := hcond'
      have hle' : d + required ≤ o := by
        unfold addrOf at hle
        omega
      have hA := Nat.le_of_dvd (pos_of_ne_zero hne) hdvd
      obtain ⟨t, p', d', hret, hready, hstable⟩ := h.wrtEntry hc hV hpe (by omega) hA fun hdata => by
        rw [if_neg hdata] at hreq
        omega
      refine ⟨t, w, _, hist, p', d', _, hready, .inl ⟨⟨data.length, ?_⟩, hstable⟩⟩
      refine .bind .get ?_
      rw [if_pos hcond]
      exact hret.bind .pure
    · -- a sector is collected
      have htake : data.take (data.length % 2 ^ 16) = data := by
        rw [Nat.mod_eq_of_lt hlen, take_length]
      obtain ⟨b, t₁, es₁, hist₁, p₁, d₁, o₁, val₁, hround, hready₁, hstable₁, hstray₁, hb⟩ :=
        h.round hc hV hpe hcalm
      obtain ⟨⟨⟩, u, hclose, hgc⟩ := hround.bind_inv
      obtain ⟨rfl, rfl, hcalm₁⟩ | ⟨rfl, rfl⟩ := hb
      · obtain ⟨t, w', es', hist', p', d', o', hready, hout⟩ := ih hstable₁ hstray₁ hcalm₁
        refine ⟨t, w', es', hist', p', d', o', hready.trans hready₁, ?_⟩
        obtain ⟨⟨n', hret⟩, hstable⟩ | ⟨⟨e, he, hfail⟩, hstable⟩ := hout
        · refine .inl ⟨⟨n', .bind .get ?_⟩, hstable⟩
          rw [if_neg hcond, htake]
          exact hclose.bind (hgc.bind hret)
        · refine .inr ⟨⟨e, he, .bind .get ?_⟩, hstable⟩
          rw [if_neg hcond, htake]
          exact .bind hclose (.bind hgc hfail)
      · refine ⟨t₁, next c w, es₁, hist₁, p₁, d₁, o₁, hready₁,
          .inl ⟨⟨data.length, .bind .get ?_⟩, hstable₁⟩⟩
        rw [if_neg hcond, htake]
        exact hclose.bind (hgc.bind .pure)

theorem Stable.write (hready : s.ready = true) (hstray : stray c s = false)
    (hok : GcWriteEntry.Ok c ⟨id, data⟩) (hV : V val) (hnew : V (update val id data))
    (hcalm : Calm c ⟨id, data⟩ (es :: hist) Q) :
    Settles c (write c id data) s V Q K val (update val id data)
      (fun e => e = .nospc ∨ e = .inval) := by
  obtain ⟨-, hpos, hfour, hsize, -⟩ := hc.sizes
  have hsub : sub32 c.sectorSize (4 * ateSize c) = c.sectorSize - 4 * ateSize c := by
    unfold sub32
    omega
  have hlen : dataLenWithCrc c data.length = (payload c data).length := dataLenWithCrc_eq hok.2
  have hle : data.length ≤ (payload c data).length := by
    obtain rfl | hne := eq_or_ne data []
    · exact Nat.zero_le _
    · rw [length_payload hne]
      exact Nat.le_add_right ..
  have hlt : data.length < 2 ^ 16 := hle.trans_lt hok.2
  by_cases hbig : alSize c (dataLenWithCrc c data.length) > sub32 c.sectorSize (4 * ateSize c)
  · refine ⟨s, w, es, hist, p, d, o, rfl, .inr ⟨⟨.inval, .inr rfl, .bind .get ?_⟩, h,
      hstray⟩⟩
    rw [hready, if_pos hbig]
    exact .throw
  have hroom : alSize c (payload c data).length + 4 * ateSize c ≤ c.sectorSize := by
    rw [hlen] at hbig
    omega
  by_cases hsame : val id = data
  · -- there is nothing to write
    have hupd : update val id data = val := by
      rw [← hsame]
      exact update_eq_self ..
    refine ⟨s, w, es, hist, p, d, o, rfl, .inl ⟨⟨0, .bind .get ?_⟩, by rwa [hupd]⟩⟩
    rw [hready, if_neg hbig]
    refine .bind (.reads (h.unchanged hc hstray id data)) ?_
    rw [decide_eq_true hsame]
    exact .pure
  · have hreq : (if alSize c (dataLenWithCrc c data.length) ≠ 0 then
        (alSize c (dataLenWithCrc c data.length) + ateSize c) % 2 ^ 16 else 0) =
          if data = [] then 0 else alSize c (payload c data).length + ateSize c := by
      rw [hlen]
      obtain rfl | hne := eq_or_ne data []
      · rw [payload_nil, length_nil, alSize_zero hc, if_neg fun h => h rfl, if_pos rfl]
      · have hpay := le_alSize hc (payload c data).length
        have hdpos := length_pos_iff.2 hne
        rw [if_pos (by omega), if_neg hne, Nat.mod_eq_of_lt (by omega)]
    obtain ⟨t, w', es', hist', p', d', o', hready', hout⟩ :=
      h.writeLoop hc hstray hV ⟨hok, hroom, hnew⟩ hlt hcalm hreq
    refine ⟨t, w', es', hist', p', d', o', hready', ?_⟩
    obtain ⟨⟨n, hret⟩, hstable⟩ | ⟨⟨e, he, hfail⟩, hstable⟩ := hout
    · refine .inl ⟨⟨n, .bind .get ?_⟩, hstable⟩
      rw [hready, if_neg hbig]
      refine .bind (.reads (h.unchanged hc hstray id data)) ?_
      rwa [decide_eq_false hsame]
    · refine .inr ⟨⟨e, .inl he, .bind .get ?_⟩, hstable⟩
      rw [hready, if_neg hbig]
      refine .bind (.reads (h.unchanged hc hstray id data)) ?_
      rwa [decide_eq_false hsame]

end

end ZephyrRtos.Nvs
