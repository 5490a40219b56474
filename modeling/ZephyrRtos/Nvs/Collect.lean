import Mathlib.Algebra.Order.BigOperators.Group.List
import ZephyrRtos.Nvs.Gc

/-! The end of a garbage collection: what is left of the data is written, with the new entry if there
is space for it, and the oldest sector is erased. -/

namespace ZephyrRtos.Nvs

open List hiding lookup lookup_cons

open Function Lib Sys LogStore

variable {c : Config} {f : Flash} {s : Fs} {w v p o d : ℕ} {buffer : List UInt8}
  {es last cs : List Entry} {hist : List (List Entry)} {e : Entry}
  {pend : Option GcWriteEntry} {pe : GcWriteEntry} {V : (ℕ → List UInt8) → Prop} {Q : Prop}
  {val : ℕ → List UInt8} {G : FlashOp → Prop}

def GcWriteEntry.Ok (c : Config) (pe : GcWriteEntry) : Prop :=
  pe.id < 0xFFFF ∧ (payload c pe.data).length < 2 ^ 16

theorem dataLenWithCrc_eq (h : (payload c data).length < 2 ^ 16) :
    dataLenWithCrc c data.length = (payload c data).length := by
  unfold dataLenWithCrc
  obtain rfl | hne := eq_or_ne data []
  · rw [payload_nil]
    rfl
  · rw [if_pos (fun h => hne (length_eq_zero_iff.1 h)), ← length_payload hne, Nat.mod_eq_of_lt h]

structure Flushed (c : Config) (s : Fs) (w : ℕ) (hist : List (List Entry)) (last es : List Entry)
    (p d o : ℕ) : Prop where
  collecting : Collecting c s.flash w es (hist ++ [last]) p d o
  opened : Open c s.flash w es p d o
  ateWra : s.ateWra = addrOf w o
  dataWra : s.dataWra = addrOf w d
  le : d ≤ o
  clean : d = alSize c p

theorem Copied.empty (h : Copied c pend s w hist last last [] buffer p d o) :
    p = 0 ∧ d = 0 ∧ buffer = [] ∧ o = top c := by
  have hkept : kept c pend hist.flatten last = [] := length_eq_zero_iff.1 h.length_eq.symm
  have htotal := h.total_eq
  have hdata := h.data_eq
  have hoff := h.collecting.front.slots.offset
  rw [hkept] at htotal
  obtain rfl : p = 0 := htotal
  refine ⟨rfl, by omega, length_eq_zero_iff.1 (by omega), by simpa using hoff⟩

theorem Copied.flush (hc : c.Good) (h : Copied c pend s w hist last last cs buffer p d o)
    (hR : Content Q (hist ++ [last]) val) (hV : V val) :
    ∃ t, ((do
        if buffer ≠ [] then flashDataAlWrt c buffer [] false
        return false) : Prog Bool).Returns s (OpOk c V Q) false t ∧
      Flushed c t w hist last cs p (alSize c p) o ∧ t.ready = s.ready := by
  have hlt := h.collecting.lt
  have hdata := h.data_eq
  have hroom := h.room
  have htop := h.collecting.front.slots.le_top
  obtain ⟨-, hpos, -, hsize, hend⟩ := hc.sizes
  by_cases hnil : buffer = []
  · subst hnil
    obtain rfl : p = d := hdata
    have hal := alSize_of_dvd hc h.collecting.front.dvd
    refine ⟨s, ?_, ⟨by rw [hal]; exact h.collecting, ?_, h.ateWra, by rw [hal]; exact h.dataWra,
      h.room, rfl⟩, rfl⟩
    · exact .bind .pure .pure
    · have hstored := h.stored
      rw [cells, map_nil, Cells.put_nil] at hstored
      rw [hal]
      exact ⟨h.collecting.front, hstored, le_rfl⟩
  · have hal : alSize c p = d + alSize c buffer.length := by
      rw [hdata, alSize_add hc h.collecting.front.dvd]
    have hlen := length_padded hc buffer
    have hempty : cs = [] → alSize c p + ateSize c ≤ o := by
      rintro rfl
      exact absurd h.empty.2.2.1 hnil
    have hdvd : c.writeBlockSize ∣ (padded c buffer).length := by
      rw [hlen]
      exact dvd_alSize hc _
    have hsteps : Steps c s.flash (s.ateWra / 2 ^ 16) (base c w + d) false (padded c buffer)
        (OpOk c V Q) := by
      rw [h.addr_div hc]
      refine h.collecting.front.steps hc (by omega) fun xs hxs hle => ⟨val, hV, ?_⟩
      exact (h.collecting.put_data hc hxs (by omega) fun hcs => by
        have := hempty hcs
        omega).shows hR
    have hcollecting := h.collecting.put_data hc hdvd (by omega) fun hcs => by
      have := hempty hcs
      omega
    rw [hlen, ← hal] at hcollecting
    refine ⟨{ s with
      flash := s.flash.put (base c w + d) (cells false (padded c buffer))
      dataWra := addrOf w (alSize c p) }, ?_, ⟨hcollecting, ⟨hcollecting.front, ?_, le_alSize hc _⟩,
        h.ateWra, rfl, h.room, rfl⟩, rfl⟩
    · rw [if_pos hnil]
      have hwrt := dataAlWrt_returns (G := OpOk c V Q) buffer []
        false hc hlt h.dataWra
      simp only [Bool.false_eq_true, if_false, append_nil] at hwrt
      rw [hal]
      exact (hwrt (by omega) (by omega) hsteps).bind .pure
    · refine h.stored.congr ?_ h.collecting.front.slots.fin_le
      rw [padded, cells_append, Cells.put_append, length_cells]
      exact Cells.sameOff_put.on (.inl (by omega))

theorem Copied.fold (hc : c.Good) (h : Copied c (some pe) s w hist last last cs buffer p d o)
    (hR : Content Q (hist ++ [last]) val) (hV : V val) (hpe : pe.Ok c)
    (hfit : alSize c (p + (payload c pe.data).length) + ateSize c ≤ o) :
    ∃ t, ((do
        flashDataAlWrt c buffer pe.data true
        flashAteWrt c (ateCrc8Update (Ate.mk pe.id (addrOffs (s.dataWra + buffer.length))
          (dataLenWithCrc c pe.data.length) 0xff 0))
        return true) : Prog Bool).Returns s (OpOk c V Q) true t ∧
      Flushed c t w hist last (⟨pe.id, p, pe.data⟩ :: cs) (p + (payload c pe.data).length)
        (alSize c (p + (payload c pe.data).length)) (o - ateSize c) ∧ t.ready = s.ready := by
  have hlt := h.collecting.lt
  have hdata := h.data_eq
  have htop := h.collecting.front.slots.le_top
  obtain ⟨hate, hpos, hfour, hsize, hend⟩ := hc.sizes
  have hX : (buffer ++ payload c pe.data).length = buffer.length + (payload c pe.data).length :=
    length_append
  have hal : alSize c (p + (payload c pe.data).length) =
      d + alSize c (buffer ++ payload c pe.data).length := by
    rw [hX, hdata, add_assoc, alSize_add hc h.collecting.front.dvd]
  have hle := le_alSize hc (p + (payload c pe.data).length)
  have hlen := length_padded hc (buffer ++ payload c pe.data)
  have hdvd : c.writeBlockSize ∣ (padded c (buffer ++ payload c pe.data)).length := by
    rw [hlen]
    exact dvd_alSize hc _
  -- the data
  have hsteps : Steps c s.flash (s.ateWra / 2 ^ 16) (base c w + d) false
      (padded c (buffer ++ payload c pe.data)) (OpOk c V Q) := by
    rw [h.addr_div hc]
    refine h.collecting.front.steps hc (by omega) fun xs hxs hle => ⟨val, hV, ?_⟩
    exact (h.collecting.put_data hc hxs (by omega) fun _ => by omega).shows hR
  have hcollecting := h.collecting.put_data hc hdvd (by omega) fun _ => by omega
  rw [hlen, ← hal] at hcollecting
  have hpad : s.flash.put (base c w + d) (cells false (padded c (buffer ++ payload c pe.data))) =
      ((s.flash.put (base c w + d) (cells false buffer)).put (base c w + p)
        (cells false (payload c pe.data))).put (base c w + (p + (payload c pe.data).length))
          (cells false (replicate (alSize c (buffer ++ payload c pe.data).length -
            (buffer ++ payload c pe.data).length) c.eraseValue)) := by
    rw [padded, cells_append, cells_append, Cells.put_append, Cells.put_append, length_append,
      length_cells, length_cells]
    congr 1
    · rw [hdata, add_assoc]
    · omega
  have hdataAt : Flash.bytes (s.flash.put (base c w + d)
      (cells false (padded c (buffer ++ payload c pe.data)))) (base c w + p)
        (payload c pe.data).length = payload c pe.data := by
    rw [hpad]
    refine (Flash.bytes_congr (Cells.sameOff_put.on (.inl (by omega)))).trans ?_
    exact bytes_put _ _ _ _
  have hopened : Open c (s.flash.put (base c w + d)
      (cells false (padded c (buffer ++ payload c pe.data)))) w cs p
        (alSize c (p + (payload c pe.data).length)) o := by
    refine ⟨hcollecting.front, h.stored.congr ?_ h.collecting.front.slots.fin_le, by omega⟩
    rw [hpad]
    intro x h1 h2
    rw [Cells.put_of_lt_or_le (.inl (by omega)), Cells.put_of_lt_or_le (.inl (by omega))]
  -- the entry
  have hfin : Entry.fin c ⟨pe.id, p, pe.data⟩ = p + (payload c pe.data).length := rfl
  have hid := hpe.1
  have hfits : Entry.Fits c ⟨pe.id, p, pe.data⟩ o :=
    ⟨hid.trans (by decide), by omega, by rw [hfin]; omega, fun _ => by rw [hfin]; exact hfit⟩
  have hcollecting' := hcollecting.put_ate hc (e := ⟨pe.id, p, pe.data⟩) le_rfl hfits
    fun hlast => by omega hid.ne
  have hopened' := hopened.put_ate hc (e := ⟨pe.id, p, pe.data⟩) (by omega) le_rfl hfits
    (by rw [hfin]; exact hle) fun hlast => by omega hdataAt
  have hop : OpOk c V Q _ := hcollecting.front.ate_ok hc (by omega)
    (Entry.ate c ⟨pe.id, p, pe.data⟩) (hcollecting.shows hR) hV
    (hcollecting'.shows hR) hV
  have hate : ateCrc8Update (.mk pe.id (addrOffs (s.dataWra + buffer.length))
      (dataLenWithCrc c pe.data.length) 0xff 0) = Entry.ate c ⟨pe.id, p, pe.data⟩ := by
    rw [h.dataWra, addrOf_add, ← hdata, addrOffs_addrOf (by omega), dataLenWithCrc_eq hpe.2]
    rfl
  refine ⟨{ s with
    flash := putAte c (s.flash.put (base c w + d)
      (cells false (padded c (buffer ++ payload c pe.data)))) w o (Entry.ate c ⟨pe.id, p, pe.data⟩)
    ateWra := addrOf w (o - ateSize c)
    dataWra := addrOf w (alSize c (p + (payload c pe.data).length)) }, ?_,
    ⟨hcollecting', hopened', rfl, rfl, by omega, rfl⟩, rfl⟩
  rw [hate]
  have hwrt := dataAlWrt_returns (s := s) (G := OpOk c V Q) buffer pe.data
    true hc hlt h.dataWra
  simp only [if_true] at hwrt
  refine (hwrt (by omega) (by omega) hsteps).bind ?_
  rw [← hal]
  refine .bind (ateWrt_returns _ hc hlt ?_ (by omega) (by omega) hop) .pure
  exact h.ateWra

theorem Erased.fill (f : Flash) :
    Erased c (f.fill (base c v) c.sectorSize (erasedCell c)) v 0 c.sectorSize :=
  fun _ _ ha => Cells.fill_of_mem (by omega) (by omega)

theorem erase_returns (hc : c.Good) (hv : v < c.sectorCount) (hx : x < 2 ^ 16)
    (hG : G ⟨s.flash, s.flash.fill (base c v) c.sectorSize (erasedCell c), s.ateWra / 2 ^ 16,
      .flatten (base c v) c.sectorSize⟩) :
    (flashEraseSector c (addrOf v x)).Returns s G ()
      { s with flash := s.flash.fill (base c v) c.sectorSize (erasedCell c) } := by
  have hdev := base_add_le hv le_rfl hc
  unfold flashEraseSector
  dsimp only
  rw [addrSect_addrOf hx, addrOf_div (Nat.two_pow_pos 16)]
  have hflat : (flashFlatten c (c.offset + c.sectorSize * v) c.sectorSize).Returns s G ()
      { s with flash := s.flash.fill (base c v) c.sectorSize (erasedCell c) } := by
    refine ⟨[_], ?_, fun op hop => (mem_singleton.1 hop).symm ▸ hG⟩
    exact if_pos hdev
  refine hflat.bind (.bind .get ?_)
  have hblank : flashCmpConst c (s.flash.fill (base c v) c.sectorSize (erasedCell c)) (addrOf v 0)
      c.eraseValue c.sectorSize = .ok true := by
    rw [flashCmpConst, flashCmp_eq hc _ hv (by rw [length_replicate])
      (by rw [length_replicate]; omega), length_replicate,
      (Erased.fill s.flash).bytes le_rfl (by omega), decide_eq_true rfl]
  rw [if_pos hblank]
  exact .pure

theorem next_ne (hc : c.Good) : next c w ≠ w := by
  have htwo := hc.two
  unfold next
  split <;> omega

theorem Open.erase (hc : c.Good) (hw : w < c.sectorCount) (h : Open c f w es p d o)
    (hring : Ring c f w (hist ++ [last])) (hfull : (hist ++ [last]).length + 1 = c.sectorCount)
    (hne : es ≠ []) : Idle c (f.fill (base c (next c w)) c.sectorSize (erasedCell c)) w es hist p d o := by
  rw [length_append, length_singleton] at hfull
  have hsame : Cells.SameOff f (f.fill (base c (next c w)) c.sectorSize (erasedCell c))
      (base c (next c w)) (base c (next c w) + c.sectorSize) := Cells.sameOff_fill
  exact {
    lt := hw
    opened := h.congr hc (sameOn_of_ne hsame (next_ne hc).symm)
    ring := hring.erase hc hw hfull
    space := le_of_eq hfull
    first hnil := by
      rw [hnil, length_nil] at hfull
      obtain h | h : w = 0 ∨ w + 1 = c.sectorCount := by omega
      · exact .inl h
      · exact .inr ⟨h, hne⟩ }

theorem addGcDoneAte_returns (hc : c.Good) (hw : w < c.sectorCount) (hate : s.ateWra = addrOf w o)
    (hdata : s.dataWra = addrOf w d) (hd : d < 2 ^ 16) (hA : ateSize c ≤ o)
    (hsize : o + ateSize c ≤ c.sectorSize)
    (hG : G (ateOp c s.flash w o ((mark d).ate c))) : (addGcDoneAte c).Returns s G ()
      { s with
        flash := putAte c s.flash w o ((mark d).ate c)
        ateWra := addrOf w (o - ateSize c) } := by
  have heq : ateCrc8Update (.mk 0xFFFF (addrOffs s.dataWra) 0 0xff 0) = (mark d).ate c := by
    rw [hdata, addrOffs_addrOf hd, Entry.ate, mark_len]
    rfl
  refine .bind .get ?_
  rw [heq]
  exact ateWrt_returns _ hc hw hate hA hsize hG

/-- What is left by a garbage collection, and that there is an entry that marks its end. -/
structure Collected (c : Config) (s t : Fs) (w : ℕ) (es : List Entry) (hist : List (List Entry))
    (p d o : ℕ) (val : ℕ → List UInt8) (Q : Prop) : Prop where
  mounted : Mounted c t w es hist p d o
  ready : t.ready = s.ready
  content : Content Q (es :: hist) val
  clean : d = alSize c p
  le : d ≤ o

theorem Flushed.finish (hc : c.Good) (h : Flushed c s w hist last es p d o)
    (hR : Content Q (hist ++ [last]) val) (hV : V val) (hmarks : Marks (es :: hist).flatten)
    (hval : ∀ id, Nvs.value id (es :: hist).flatten = val' id) (hV' : V val')
    (hQ : o < d + ateSize c → Q) (b : Bool) :
    ∃ t es' p' o', ((do
        let fs ← Logged.get
        if fs.ateWra ≥ fs.dataWra + ateSize c then addGcDoneAte c
        flashEraseSector c (addrOf (next c w) 0)
        return b) : Prog Bool).Returns s (OpOk c V Q) b t ∧
      Collected c s t w es' hist p' d o' val' Q ∧ (es' = es ∨ es' = mark d :: es) := by
  have hlt := h.collecting.lt
  have htop := h.collecting.front.slots.le_top
  obtain ⟨-, hpos, -, hsize, hend⟩ := hc.sizes
  have hshow := h.collecting.shows hR
  have htidy : ∀ {es' : List Entry}, ((∃ e ∈ es', e.IsMark) ∨ Q) →
      ∀ x ∈ es' :: hist, x ≠ [] → (∃ e ∈ x, e.IsMark) ∨ Q := by
    intro es' hes' x hx hne
    obtain rfl | hx := mem_cons.1 hx
    · exact hes'
    · exact hR.tidy x (mem_append_left _ hx) hne
  by_cases hroom : d + ateSize c ≤ o
  · -- the end is marked
    have hfits := mark_fits hc h.opened.front.dvd hroom
    have hopened := h.opened.put_ate hc h.le h.opened.le hfits
      (by rw [mark_fin]) fun hlast => by omega (by rw [mark_len]; exact payload_nil.symm)
    rw [mark_fin] at hopened
    have hlen : (padded c ((mark d).ate c).bytes).length = ateSize c := length_padded hc _
    have hring : Ring c (putAte c s.flash w o ((mark d).ate c)) w (hist ++ [last]) := by
      have hfull := h.collecting.full
      exact h.collecting.ring.congr hc (by omega) (put_sector (by omega) true)
    have hfinished : Finished c (putAte c s.flash w o ((mark d).ate c)) w (mark d :: es)
        (hist ++ [last]) d d (o - ateSize c) :=
      ⟨hlt, hopened, hring, h.collecting.full, ⟨mark d, mem_cons_self, rfl, rfl⟩,
        (alSize_of_dvd hc h.opened.front.dvd).symm⟩
    have hR' : Content Q ((mark d :: es) :: hist) val' :=
      ⟨hmarks.cons fun _ => rfl, fun id => (hmarks.value_mark id).trans (hval id),
        htidy (.inl ⟨mark d, mem_cons_self, rfl, rfl⟩)⟩
    have hshow' := hfinished.shows hR'
    have hidle := hopened.erase hc hlt hring h.collecting.full (cons_ne_nil _ _)
    have hop : OpOk c V Q _ := h.opened.front.ate_ok hc h.le ((mark d).ate c) hshow hV hshow' hV'
    refine ⟨{ s with
      flash := (putAte c s.flash w o ((mark d).ate c)).fill (base c (next c w)) c.sectorSize
        (erasedCell c)
      ateWra := addrOf w (o - ateSize c) }, mark d :: es, d, o - ateSize c,
      .bind .get ?_, ⟨⟨hidle, rfl, h.dataWra, cons_ne_nil _ _⟩, rfl, hR',
      (alSize_of_dvd hc h.opened.front.dvd).symm, by omega⟩, .inr rfl⟩
    rw [if_pos (by rw [h.ateWra, h.dataWra]; unfold addrOf; omega)]
    refine (addGcDoneAte_returns hc hlt h.ateWra h.dataWra (by omega) (by omega) (by omega) hop).bind
      (.bind (erase_returns hc (next_lt hlt) (Nat.two_pow_pos 16) ?_) .pure)
    rw [addrOf_div (by omega)]
    exact ⟨trivial, ⟨val', hV', hshow'⟩, ⟨val', hV', hidle.shows hR'⟩,
      .inl (.inr (.inr (hopened.front.slots.marked hc mem_cons_self ⟨rfl, rfl⟩)))⟩
  · have hne : es ≠ [] := fun hnil => hroom (h.opened.front.empty hnil)
    have hidle := h.opened.erase hc hlt h.collecting.ring h.collecting.full hne
    have hR' : Content Q (es :: hist) val' := ⟨hmarks, hval, htidy (.inr (hQ (by omega)))⟩
    refine ⟨{ s with flash := s.flash.fill (base c (next c w)) c.sectorSize (erasedCell c) }, es, p, o,
      .bind .get ?_, ⟨⟨hidle, h.ateWra, h.dataWra, hne⟩, rfl, hR', h.clean, h.le⟩,
      .inl rfl⟩
    rw [if_neg (by rw [h.ateWra, h.dataWra]; unfold addrOf; omega)]
    refine .bind
      (erase_returns hc (next_lt hlt) (Nat.two_pow_pos 16) ?_) .pure
    exact ⟨trivial, ⟨val, hV, hshow⟩, ⟨val', hV', hidle.shows hR'⟩, .inr (hQ (by omega))⟩

/-- After the new entry is written with the copies there is no space to mark the end. -/
def Tight (c : Config) (data : List UInt8) (es : List Entry) : Prop :=
  alSize c (total c es + (payload c data).length) + (es.length + 3) * ateSize c ≤ c.sectorSize ∧
    c.sectorSize < alSize c (total c es + (payload c data).length) + (es.length + 4) * ateSize c

theorem total_filter (he : e ∈ es) (hq : q e = false) :
    total c (es.filter q) + e.len c ≤ total c es ∧ (es.filter q).length + 1 ≤ es.length := by
  induction es with
  | nil => cases he
  | cons x es ih =>
    have hle : total c (es.filter q) ≤ total c es := (filter_sublist.map _).sum_le_sum (by simp)
    have hlen : (es.filter q).length ≤ es.length := length_filter_le ..
    have hcons : ∀ l, total c (x :: l) = x.len c + total c l := fun l => rfl
    obtain rfl | he := mem_cons.1 he
    · rw [filter_cons_of_neg (by rw [hq]; decide), hcons, length_cons]
      omega
    obtain ⟨ih1, ih2⟩ := ih he
    rw [hcons, length_cons, filter_cons]
    split
    · rw [hcons, length_cons]
      omega
    · omega

theorem exists_sublist_perm {xs ys : List α} (h : xs.Sublist ys) (hm : m ∈ ys) (hx : m ∉ xs) :
    ∃ zs : List α, zs.Sublist ys ∧ zs.Perm (m :: xs) := by
  induction h with
  | slnil => cases hm
  | @cons xs ys y hsub ih =>
    obtain rfl | hm := mem_cons.1 hm
    · exact ⟨m :: xs, hsub.cons_cons m, .refl _⟩
    · obtain ⟨zs, hzs, hperm⟩ := ih hm hx
      exact ⟨zs, hzs.cons y, hperm⟩
  | @cons_cons xs ys y hsub ih =>
    obtain rfl | hm := mem_cons.1 hm
    · exact absurd mem_cons_self hx
    · obtain ⟨zs, hzs, hperm⟩ := ih hm fun h => hx (mem_cons_of_mem _ h)
      exact ⟨y :: zs, hzs.cons_cons y, (hperm.cons y).trans (.swap ..)⟩

theorem Slots.room_mark (pend : Option GcWriteEntry) (hist : List (List Entry)) (hc : c.Good)
    (h : Slots c f v last p o) (hm : m ∈ last) (hmark : m.IsMark) :
    alSize c (total c (kept c pend hist.flatten last)) +
      ((kept c pend hist.flatten last).length + 3) * ateSize c ≤ c.sectorSize := by
  have hnot : m ∉ kept c pend hist.flatten last := fun h => data_of_mem_kept h hmark.2
  obtain ⟨T, hT, hperm⟩ := exists_sublist_perm kept_sublist hm hnot
  have hlen : T.length = (kept c pend hist.flatten last).length + 1 := hperm.length_eq
  have htotal : total c T = total c (kept c pend hist.flatten last) := by
    have := (hperm.map (Entry.len c)).sum_eq
    rw [map_cons, sum_cons, Entry.len_eq_zero.2 hmark.2, zero_add] at this
    exact this
  have hroom := h.room hc hT (by
    rintro rfl
    simp at hlen) fun x hx => by
      obtain rfl | hx := mem_cons.1 (hperm.mem_iff.1 hx)
      · exact .inr hmark
      · exact .inl (data_of_mem_kept hx)
  rwa [hlen, htotal] at hroom

theorem Slots.room_replaced (hc : c.Good) (h : Slots c f v last p o) (hpe : pe.Ok c)
    (he : e ∈ live Entry.id Entry.data hist.flatten last)
    (hrep : GcWriteEntry.replaces c (some pe) (e.ate c) = true) :
    alSize c (total c (kept c (some pe) hist.flatten last) + (payload c pe.data).length) +
      ((kept c (some pe) hist.flatten last).length + 3) * ateSize c ≤ c.sectorSize := by
  have hroom := h.room hc live_sublist
    (ne_nil_of_mem he) fun x hx => .inl (val_of_mem_live hx)
  obtain ⟨htotal, hlen⟩ := total_filter
    (q := fun e => !GcWriteEntry.replaces c (some pe) (e.ate c)) he (by rw [hrep]; rfl)
  have hle : (payload c pe.data).length ≤ e.len c := by
    rw [GcWriteEntry.replaces, dataLenWithCrc_eq hpe.2, Bool.and_eq_true] at hrep
    exact of_decide_eq_true hrep.2
  have hal := alSize_mono hc ((Nat.add_le_add_left hle _).trans htotal)
  have hmul := Nat.mul_le_mul_right (ateSize c) (Nat.add_le_add_right hlen 2)
  have hexp : ∀ n, (n + 1 + 2) * ateSize c = (n + 3) * ateSize c := fun _ => rfl
  rw [hexp] at hmul
  unfold kept
  omega

theorem Copied.value (h : Copied c pend s w hist last last cs buffer p d o) {id : ℕ}
    (hid : ∀ e ∈ live Entry.id Entry.data hist.flatten last,
      GcWriteEntry.replaces c pend (e.ate c) = true → e.id ≠ id) :
    Nvs.value id (cs ++ hist.flatten) = Nvs.value id (hist ++ [last]).flatten := by
  rw [flatten_append, flatten_singleton]
  exact h.collected.lookup id hid

theorem Copied.flushAndTryWrite (hc : c.Good)
    (h : Copied c pend s w hist last last cs buffer p d o) (hR : Content Q (hist ++ [last]) val)
    (hV : V val)
    (hpend : ∀ pe, pend = some pe → pe.Ok c) :
    ∃ b t es' p' d' o', (gcFlushAndTryWrite c buffer pend).Returns s (OpOk c V Q) b t ∧
      Flushed c t w hist last es' p' d' o' ∧ t.ready = s.ready ∧ Marks (es' ++ hist.flatten) ∧
      (b = false ∧ es' = cs ∧ d' = alSize c p ∧ o' = o ∧
          (∀ pe, pend = some pe → o < alSize c (p + (payload c pe.data).length) + ateSize c) ∧
          (∀ id, Nvs.value id (es' ++ hist.flatten) = val id) ∨
        ∃ pe, pend = some pe ∧ b = true ∧ d' = alSize c (p + (payload c pe.data).length) ∧
          o' = o - ateSize c ∧ d' + ateSize c ≤ o ∧ ∀ id, Nvs.value id (es' ++ hist.flatten) =
            update val pe.id pe.data id) := by
  have hcs : Marks (cs ++ hist.flatten) := by
    intro x hx hid
    obtain hx | hx := mem_append.1 hx
    · exact absurd hid (h.collecting.unmarked x hx)
    · refine hR.marks x ?_ hid
      rw [flatten_append]
      exact mem_append_left _ hx
  obtain ⟨p0, o0, hclosed⟩ := h.closed
  cases pend with
  | none =>
    obtain ⟨t, hret, hflushed, hready⟩ := h.flush hc hR hV
    refine ⟨false, t, cs, p, _, o, hret, hflushed, hready, hcs,
      .inl ⟨rfl, rfl, rfl, rfl, (fun _ h => nomatch h), fun id => ?_⟩⟩
    exact (h.value fun _ _ hrep => by cases hrep).trans (hR.value id)
  | some pe =>
    have hpe := hpend pe rfl
    have hfull := h.collecting.front.slots.offset
    obtain ⟨-, -, -, -, hend⟩ := hc.sizes
    have hal : alSize c (p + (payload c pe.data).length) =
        d + alSize c (buffer.length + (payload c pe.data).length) := by
      rw [h.data_eq, add_assoc, alSize_add hc h.collecting.front.dvd]
    have hlen := dataLenWithCrc_eq hpe.2
    have hcond : s.ateWra < s.dataWra + (ateSize c +
        alSize c (buffer.length + dataLenWithCrc c pe.data.length)) ↔
          o < alSize c (p + (payload c pe.data).length) + ateSize c := by
      rw [h.ateWra, h.dataWra, hlen]
      unfold addrOf
      omega
    by_cases hfit : o < alSize c (p + (payload c pe.data).length) + ateSize c
    · obtain ⟨t, hret, hflushed, hready⟩ := h.flush hc hR hV
      refine ⟨false, t, cs, p, _, o, .bind .get ?_, hflushed, hready, hcs,
        .inl ⟨rfl, rfl, rfl, rfl, ?_, fun id => ?_⟩⟩
      · rwa [if_pos (hcond.2 hfit)]
      · rintro _ ⟨⟩
        exact hfit
      · refine (h.value fun e he hrep => ?_).trans (hR.value id)
        have hroom := hclosed.slots.room_replaced hc hpe he hrep
        rw [← h.total_eq, ← h.length_eq, add_mul] at hroom
        omega
    · obtain ⟨t, hret, hflushed, hready⟩ := h.fold hc hR hV hpe (by omega)
      refine ⟨true, t, _, _, _, _, .bind .get ?_, hflushed, hready,
        hcs.cons fun hid => absurd hid hpe.1.ne,
        .inr ⟨pe, rfl, rfl, rfl, rfl, by omega, fun id => ?_⟩⟩
      · rwa [if_neg (fun hlt => hfit (hcond.1 hlt))]
      rw [cons_append, Nvs.value, lookup_cons]
      split
      next heq =>
        subst heq
        rw [update_self]
      next hne =>
        rw [update_of_ne fun heq => hne heq.symm]
        refine (h.value fun e he hrep heq => hne ?_).trans (hR.value id)
        rw [GcWriteEntry.replaces, Bool.and_eq_true, decide_eq_true_iff] at hrep
        exact hrep.1.trans heq

theorem gcAddr_eq (hc : c.Good) (hw : w < c.sectorCount) (hate : s.ateWra = addrOf w o)
    (ho : o < 2 ^ 16) : sectorAdvance c (addrSect s.ateWra) = addrOf (next c w) 0 ∧
      addrOf (next c w) 0 + c.sectorSize - ateSize c =
        addrOf (next c w) (c.sectorSize - ateSize c) := by
  have hfour := hc.four
  refine ⟨?_, ?_⟩
  · rw [hate, addrSect_addrOf ho, advance_addrOf hc.count_lt hw (Nat.two_pow_pos 16)]
  · unfold addrOf
    omega

/-- After a collection without the new entry: the entries that were copied have ids that are not in
the other sectors, and there is no space for the new entry. -/
structure Settled (c : Config) (pend : Option GcWriteEntry) (es : List Entry)
    (hist : List (List Entry)) : Prop where
  fresh : ∀ e ∈ es, e.IsMark ∨ ∀ x ∈ hist.flatten, x.id ≠ e.id
  loose : ∀ pe, pend = some pe → ¬Tight c pe.data (kept c pend [] es)

theorem Copied.settled (h : Copied c pend s w hist last last cs buffer p d o)
    (hfull : ∀ pe, pend = some pe → o < alSize c (p + (payload c pe.data).length) + ateSize c)
    (hes : es = cs ∨ es = mark d' :: cs) : Settled c pend es hist where
  fresh e he := by
    have hcs : ∀ e ∈ cs, e.IsMark ∨ ∀ x ∈ hist.flatten, x.id ≠ e.id :=
      fun e he => .inr (h.collected.fresh e he)
    obtain rfl | rfl := hes
    · exact hcs e he
    · obtain rfl | he := mem_cons.1 he
      · exact .inl ⟨rfl, rfl⟩
      · exact hcs e he
  loose pe hpe htight := by
    have hlive : live Entry.id Entry.data [] es = cs := by
      obtain rfl | rfl := hes
      · exact live_eq_self h.collected.vals h.collected.nodup nofun
      · refine live_eq_self h.collected.vals h.collected.nodup fun x hx y hy => ?_
        rw [mem_singleton.1 hy]
        exact fun heq => h.collecting.unmarked x hx heq.symm
    have hkept : kept c pend [] es = cs := by
      rw [kept, hlive]
      exact filter_eq_self.2 fun x hx => by rw [h.kept_copies x hx]; rfl
    have hoff := h.collecting.front.slots.offset
    have hlt := hfull pe hpe
    obtain ⟨hle, -⟩ := htight
    rw [hkept, h.total_copies, add_mul] at hle
    unfold top at hoff
    omega

theorem Collecting.gc (pend : Option GcWriteEntry) (hc : c.Good)
    (h : Collecting c s.flash w [] (hist ++ [last]) 0 0 (top c))
    (hate : s.ateWra = addrOf w (top c)) (hdata : s.dataWra = addrOf w 0)
    (hR : Content Q (hist ++ [last]) val) (hV : V val)
    (hpend : ∀ pe, pend = some pe → pe.Ok c ∧ V (update val pe.id pe.data))
    (hQ : ∀ pe, pend = some pe → Tight c pe.data (kept c pend hist.flatten last) → Q) :
    ∃ b t es p d o val', (gc c pend).Returns s (OpOk c V Q) b t ∧
      Collected c s t w es hist p d o val' Q ∧
      (b = false ∧ val' = val ∧ Settled c pend es hist ∨
        ∃ pe, pend = some pe ∧ b = true ∧ val' = update val pe.id pe.data) := by
  have hlt := h.lt
  have hfour := hc.four
  have hsize := hc.size_le
  have hpos := sizeofAte_le hc
  have htop : top c + 2 * ateSize c = c.sectorSize := by
    unfold top
    omega
  have hpos' := hpos
  unfold sizeofAte at hpos'
  obtain ⟨hadv, hgcAddr⟩ := gcAddr_eq hc hlt hate (by omega)
  have hcopied : Copied c pend s w hist last [] [] [] 0 0 (top c) :=
    ⟨h, hate, hdata, rfl, block_pos hc, by rw [alSize_zero hc]; omega,
      nofun, rfl, rfl, rfl, nofun,
      .nil⟩
  obtain ⟨p0, o0, hclosed⟩ := hcopied.closed
  have ho0 : o0 + ateSize c ≤ top c := by
    have hoff := hclosed.slots.offset
    have hlen := Nat.mul_le_mul_right (ateSize c) (length_pos_iff.2 hclosed.ne_nil)
    omega
  have hrd : flashAteRd c s.flash (addrOf (next c w) (c.sectorSize - ateSize c)) =
      .ok (closeAte c o0) := by
    rw [ateRd_addrOf hc (next_lt hlt) s.flash (by omega), hclosed.close, Ate.ofBytes_bytes]
    · exact (by decide : 0xFFFF < 2 ^ 16)
    · show o0 + ateSize c < 2 ^ 16
      omega
    · exact Nat.two_pow_pos 16
  have hvalid := closeAte_valid hc (by omega) (hclosed.slots.dvd hc)
  cases last with
  | nil => exact absurd rfl hclosed.ne_nil
  | cons e todo =>
    have hoff := hclosed.slots.offset
    rw [length_cons, add_mul, one_mul] at hoff
    have hstart : addrSect (addrOf (next c w) (c.sectorSize - ateSize c)) + (closeAte c o0).offset =
        addrOf (next c w) (top c - todo.length * ateSize c) := by
      rw [addrSect_addrOf (by omega), addrOf_add, zero_add]
      congr 1
      show o0 + ateSize c = _
      omega
    have hstop : addrOf (next c w) (c.sectorSize - ateSize c) - ateSize c = addrOf (next c w) (top c) := by
      unfold addrOf
      omega
    have hn : todo.length < c.sectorSize + 1 := by
      have hlen := hclosed.slots.length_lt hc
      rw [length_cons] at hlen
      omega
    have hcopied₀ : Copied c pend s w hist ([] ++ e :: todo) [] [] [] 0 0 (top c) := hcopied
    obtain ⟨cs, buffer, p, d, o, t₁, hloop, hcopied₁, hready₁⟩ := hcopied₀.loop hc hn hR hV
    rw [nil_append] at hcopied₁
    obtain ⟨b, t₂, es, p', d', o', hflush, hflushed, hready₂, hmarks', hout⟩ :=
      hcopied₁.flushAndTryWrite hc hR hV fun pe hpe => (hpend pe hpe).1
    obtain ⟨val', hval', hV', hb, hQ'⟩ : ∃ val', (∀ id, Nvs.value id (es ++ hist.flatten) = val' id) ∧
        V val' ∧ (b = false ∧ val' = val ∧
            (∀ es', es' = es ∨ es' = mark d' :: es → Settled c pend es' hist) ∨
          ∃ pe, pend = some pe ∧ b = true ∧ val' = update val pe.id pe.data) ∧
        (o' < d' + ateSize c → Q) := by
      have hslots := hcopied₁.collecting.front.slots.offset
      rw [hcopied₁.length_eq] at hslots
      obtain ⟨rfl, rfl, rfl, rfl, hfull, hval'⟩ | ⟨pe, hpe, rfl, rfl, rfl, hfit, hval'⟩ := hout
      · refine ⟨val, hval', hV, .inl ⟨rfl, rfl, fun es' hes' => hcopied₁.settled hfull hes'⟩,
          fun hlt => ?_⟩
        obtain ⟨m, hm, hmark⟩ | hQ := hR.tidy (e :: todo) (by simp) (cons_ne_nil _ _)
        · have hroom := hclosed.slots.room_mark pend hist hc hm hmark
          rw [← hcopied₁.total_eq, add_mul] at hroom
          omega
        · exact hQ
      · refine ⟨_, hval', (hpend pe hpe).2, .inr ⟨pe, hpe, rfl, rfl⟩, fun hlt => hQ pe hpe ?_⟩
        have hle : alSize c (p + (payload c pe.data).length) + ateSize c ≤ o := hfit
        rw [hcopied₁.total_eq] at hle hlt
        refine ⟨?_, ?_⟩
        · rw [add_mul]
          omega
        · rw [add_mul]
          omega
    obtain ⟨t, es', p'', o'', hfinish, hcollected, hes'⟩ :=
      hflushed.finish hc hR hV hmarks' hval' hV' hQ' b
    refine ⟨b, t, es', p'', d', o'', val', ?_, ?_, ?_⟩
    · unfold Nvs.gc
      refine .bind .get ?_
      dsimp only
      rw [hadv, hgcAddr]
      refine .bind (.reads hrd) ?_
      rw [closeAte_not_erased, if_neg (by decide), hstop]
      refine .bind (.reads ?_) (hloop.bind (hflush.bind hfinish))
      rw [if_pos hvalid, hstart]
    · exact ⟨hcollected.mounted, hcollected.ready.trans (hready₂.trans hready₁), hcollected.content,
        hcollected.clean, hcollected.le⟩
    · obtain ⟨hb, hval'', hsettled⟩ | hb := hb
      · exact .inl ⟨hb, hval'', hsettled es' hes'⟩
      · exact .inr hb

end ZephyrRtos.Nvs
