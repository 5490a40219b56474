import ZephyrRtos.Fcb.Sectors

namespace ZephyrRtos.Fcb

open List Function Lib Sys

variable {c : Config} {f : Flash} {s : State} {sector off len k first : ℕ} {e : Entry}
  {live : List Item} {hdr : List UInt8}

theorem lenInFlash_one (h : ∃ n, c.align = 2 ^ n) : lenInFlash c crcSz = c.align := by
  obtain ⟨n, hn⟩ := h
  have hpos : 0 < 2 ^ n := Nat.two_pow_pos n
  unfold lenInFlash crcSz
  rw [hn]
  split
  · omega
  · rw [Nat.add_sub_cancel' (by omega), Nat.and_two_pow_sub_one_eq_mod, Nat.mod_self, Nat.sub_zero]

def endmarker (c : Config) (f : Flash) (sector : ℕ) (p : ℕ × Elem) : UInt8 :=
  if c.allowFixedEndmarker ∧ c.crcDisabled then fixedEndmarker else crcOf f sector p

theorem elemEndmarker_eq (hat : elemAt c f sector loc.elemOff = some p)
    (hfits : p.2.dataOff + p.2.dataLen ≤ c.sectorSize sector) :
    elemEndmarker c f sector loc = (.ok (endmarker c f sector p), p.2) := by
  unfold elemEndmarker endmarker
  split
  · rw [elemEndmarkerFixed, elemLen_eq, hat]
  · simp [elemCrc8_eq, hat, if_pos (Or.inl hfits)]

/-- What `fcb_append` writes: the length, filled up to the alignment. -/
def lenBytes (c : Config) (hdr : List UInt8) : List UInt8 :=
  hdr ++ List.replicate (lenInFlash c hdr.length - hdr.length) c.eraseValue

theorem length_lenBytes : (lenBytes c hdr).length = lenInFlash c hdr.length := by
  rw [lenBytes, length_append, length_replicate, Nat.add_sub_cancel' (le_lenInFlash _)]

theorem appendElem_eq (h : s.active.elemOff + lenInFlash c hdr.length ≤ c.sectorSize s.activeSector) :
    appendElem c s hdr len = .ok ({ s with
      flash := update s.flash s.activeSector
        ((s.flash s.activeSector).put s.active.elemOff (lenBytes c hdr))
      active := { s.active with elemOff := s.active.elemOff + lenInFlash c hdr.length + len } },
      ⟨some s.activeSector, s.active.elemOff, s.active.elemOff + lenInFlash c hdr.length, 0⟩) := by
  have hwrite : flashWrite c s.flash s.activeSector s.active.elemOff (lenBytes c hdr) = .ok _ :=
    flashWrite_ok (by rw [length_lenBytes]; exact h)
  unfold appendElem
  unfold lenBytes at hwrite
  simp only [hwrite]
  rfl

theorem lies_append (hput : putLen c len = .ok hdr) (herased : Erased c f sector off)
    (hroom : off + (lenInFlash c len + lenInFlash c crcSz) + lenInFlash c hdr.length ≤
      c.sectorSize sector) :
    Lies c (update f sector ((f sector).put off (lenBytes c hdr))) sector
      ⟨⟨some sector, ⟨off, off + lenInFlash c hdr.length, len⟩⟩, false⟩ := by
  have hlen := length_putLen hput
  have h1 := le_lenInFlash (c := c) crcSz
  unfold crcSz at h1
  refine ⟨rfl, ?_, ?_, ?_, fun hfin => absurd hfin nofun, fun _ => ?_⟩
  · rw [hput, update_self]
    rw [lenBytes, Cells.put_append, ← hlen,
      Cells.slice_congr (Cells.sameOff_put.on (.inl le_rfl)),
      Cells.slice_put_self]
  · rw [hlen]
  · unfold behind markerOff
    dsimp only
    omega
  · unfold markerOff
    dsimp only
    rw [update_self, Cells.put_of_lt_or_le (.inr (by rw [length_lenBytes]; omega))]
    unfold crcSz at hroom
    exact herased _ (by omega) (by omega)

theorem lies_finish (h : Lies c f sector i) :
    Lies c (update f sector ((f sector).put (markerOff c i.entry.elem)
      (endmarker c f sector i.stored :: replicate (c.align - 1) 0xff))) sector
      ⟨i.entry, true⟩ := by
  obtain ⟨h1, h2, -⟩ := h.bounds
  have hself : update f sector ((f sector).put (markerOff c i.entry.elem)
      (endmarker c f sector i.stored :: replicate (c.align - 1) 0xff)) sector =
      (f sector).put (markerOff c i.entry.elem)
        (endmarker c f sector i.stored :: replicate (c.align - 1) 0xff) :=
    update_self ..
  have hbelow : Cells.SameOn (f sector) ((f sector).put (markerOff c i.entry.elem)
      (endmarker c f sector i.stored :: replicate (c.align - 1) 0xff))
      i.entry.elem.elemOff (markerOff c i.entry.elem) := Cells.sameOff_put.on (.inl le_rfl)
  refine ⟨h.sector_eq, ?_, h.dataOff, h.fits, fun _ => ?_, fun hfin => absurd hfin nofun⟩
  · dsimp only
    rw [hself, Cells.slice_congr hbelow.narrow]
    exact h.len
  have hcrc : crcOf (update f sector ((f sector).put (markerOff c i.entry.elem)
      (endmarker c f sector i.stored :: replicate (c.align - 1) 0xff))) sector i.stored =
      crcOf f sector i.stored := by
    refine crcOf_congr h1 ?_
    rw [hself]
    exact hbelow.narrow le_rfl h2
  have hstored : (⟨i.entry, true⟩ : Item).stored = i.stored := rfl
  unfold Marked
  rw [hstored, hcrc, show i.stored.2 = i.entry.elem from rfl, hself]
  rw [Cells.put_cons_self, endmarker]
  split
  next hfixed => exact .inr ⟨hfixed, rfl⟩
  next => exact .inl rfl

theorem lies_write (h : Lies c f sector i) (hopen : i.finished = false)
    (hin : off + bs.length ≤ lenInFlash c i.entry.elem.dataLen) :
    Lies c (update f sector ((f sector).put (i.entry.elem.dataOff + off) bs)) sector i := by
  obtain ⟨h1, -⟩ := h.bounds
  have hself : update f sector ((f sector).put (i.entry.elem.dataOff + off) bs) sector =
      (f sector).put (i.entry.elem.dataOff + off) bs := update_self ..
  refine ⟨h.sector_eq, ?_, h.dataOff, h.fits, fun hfin => absurd (hopen.symm.trans hfin) nofun,
    fun _ => ?_⟩
  · rw [hself, Cells.slice_congr (Cells.sameOff_put.on (.inl (by omega)))]
    exact h.len
  · rw [hself, Cells.put_of_lt_or_le (.inr (by unfold markerOff; omega))]
    exact h.unmarked hopen

theorem append_of_full (hput : putLen c len = .ok hdr)
    (hfull : s.active.elemOff + (lenInFlash c len + lenInFlash c crcSz) +
      lenInFlash c hdr.length > c.sectorSize s.activeSector)
    (hnew : newSector c s c.scratchCnt = some sector) (hopen : openSector c s sector = .ok s') :
    append c s len = if c.sectorSize sector < firstOff c + (lenInFlash c len + lenInFlash c crcSz) +
        lenInFlash c hdr.length then .error .nospc
      else appendElem c s' hdr (lenInFlash c len + lenInFlash c crcSz) := by
  unfold append
  rw [hput]
  refine (if_pos hfull).trans ?_
  rw [hnew]
  by_cases hsmall : c.sectorSize sector < firstOff c + (lenInFlash c len + lenInFlash c crcSz) +
      lenInFlash c hdr.length
  · rw [if_pos hsmall]
    exact if_pos hsmall
  · rw [if_neg hsmall]
    refine (if_neg hsmall).trans ?_
    rw [hopen]
    rfl

namespace Layout

section

variable (h : Layout c s live k first)
include h

theorem appendElem (hput : putLen c len = .ok hdr)
    (hroom : s.active.elemOff + (lenInFlash c len + lenInFlash c crcSz) + lenInFlash c hdr.length ≤ c.sectorSize s.activeSector) :
    ∃ s' loc, appendElem c s hdr (lenInFlash c len + lenInFlash c crcSz) =
        .ok (s', ⟨some s.activeSector, loc⟩) ∧ s'.oldest = s.oldest ∧
      Layout c s' (live ++ [⟨⟨some s.activeSector, { loc with dataLen := len }⟩, false⟩]) k first := by
  obtain ⟨off, hc, hoff⟩ := h.content k le_rfl
  obtain rfl := hoff rfl
  have hactive := h.active_eq
  rw [← hactive] at hc
  have hlies := lies_append hput hc.erased hroom
  have happ := h.toSectors.append ((s.flash s.activeSector).put s.active.elemOff (lenBytes c hdr))
    ⟨⟨some s.activeSector, ⟨s.active.elemOff, s.active.elemOff + lenInFlash c hdr.length, len⟩⟩,
      false⟩
    (congrArg some hactive) rfl
  rw [← hactive] at happ
  have hsectors := happ (Cells.sameOff_put.widen le_rfl
    (by rw [length_lenBytes]; unfold behind markerOff; dsimp only; omega)) hlies
  refine ⟨_, _, appendElem_eq (by omega), rfl, ?_⟩
  rw [show behind c _ = _ from add_assoc ..] at hsectors
  exact { hsectors with
    active_eq := hactive
    id_eq := h.id_eq }

theorem appendToScratch (hvalid : c.Valid) :
    appendToScratch c s = .error .nospc ∨
    ∃ s', appendToScratch c s = .ok s' ∧ s'.oldest = s.oldest ∧ Layout c s' live (k + 1) first := by
  unfold Fcb.appendToScratch
  cases hnew : Fcb.newSector c s 0 with
  | none => exact .inl rfl
  | some sector =>
    obtain ⟨hlt, rfl⟩ := h.newSector hnew
    obtain ⟨s', hopen, hold, -, h'⟩ := h.openSector hvalid hlt
    exact .inr ⟨s', hopen, hold, h'⟩

theorem append (hvalid : c.Valid) (len : ℕ) :
    (∃ err, append c s len = .error err) ∨
    ∃ s' sector loc k', append c s len = .ok (s', ⟨some sector, loc⟩) ∧ s'.oldest = s.oldest ∧
      Layout c s' (live ++ [⟨⟨some sector, { loc with dataLen := len }⟩, false⟩]) k' first := by
  cases hput : putLen c len with
  | error err =>
    left
    refine ⟨err, ?_⟩
    unfold Fcb.append
    rw [hput]
    rfl
  | ok hdr =>
    by_cases hfull : s.active.elemOff + (lenInFlash c len + lenInFlash c crcSz) +
        lenInFlash c hdr.length > c.sectorSize s.activeSector
    case neg =>
      obtain ⟨s', loc, happ, hold, h'⟩ := h.appendElem hput (by omega)
      refine .inr ⟨s', _, loc, k, ?_, hold, h'⟩
      rw [← happ, Fcb.append, hput]
      exact if_neg hfull
    case pos =>
      cases hnew : Fcb.newSector c s c.scratchCnt with
      | none =>
        refine .inl ⟨.nospc, ?_⟩
        unfold Fcb.append
        rw [hput]
        refine (if_pos hfull).trans ?_
        rw [hnew]
      | some sector =>
        obtain ⟨hlt, rfl⟩ := h.newSector hnew
        obtain ⟨s', hopen, hold, hoff, h'⟩ := h.openSector hvalid hlt
        have happ := append_of_full hput hfull hnew hopen
        by_cases hsmall : c.sectorSize (nth c s.oldest (k + 1)) <
            firstOff c + (lenInFlash c len + lenInFlash c crcSz) + lenInFlash c hdr.length
        · rw [if_pos hsmall] at happ
          exact .inl ⟨_, happ⟩
        · have hactive : s'.activeSector = nth c s.oldest (k + 1) := by rw [h'.active_eq, hold]
          obtain ⟨s'', loc, helem, hold', h''⟩ := h'.appendElem hput (by rw [hactive]; omega)
          rw [if_neg hsmall, helem] at happ
          exact .inr ⟨s'', _, loc, k + 1, happ, hold'.trans hold, h''⟩

theorem finish (hvalid : c.Valid) (hi : ⟨e, false⟩ ∈ live) (hs : e.sector = some sector) :
    ∃ s', appendFinish c s sector e.elem = .ok s' ∧ s'.oldest = s.oldest ∧
      Layout c s' (live.map fun j => if j.entry = e then ⟨e, true⟩ else j) k first := by
  have hlies := h.lies hi hs
  obtain ⟨h1, h2, -⟩ := hlies.bounds
  have hfits := hlies.fits
  have hone := lenInFlash_one hvalid.align
  have hpos : 0 < c.align := by
    obtain ⟨n, hn⟩ := hvalid.align
    rw [hn]
    exact Nat.two_pow_pos n
  have hlen : (endmarker c s.flash sector (Item.stored ⟨e, false⟩) ::
      replicate (c.align - 1) 0xff).length = c.align := by
    rw [length_cons, length_replicate]
    omega
  have hbehind : markerOff c e.elem + c.align = behind c e.elem := by rw [behind, hone]
  have hend := elemEndmarker_eq hlies.elemAt (show e.elem.dataOff + e.elem.dataLen ≤ _ by
    dsimp only at *; omega)
  have hwrite : flashWrite c s.flash sector (markerOff c e.elem)
      (endmarker c s.flash sector (Item.stored ⟨e, false⟩) :: replicate (c.align - 1) 0xff) =
      .ok _ := flashWrite_ok (by rw [hlen, hbehind]; exact hfits)
  have hfinish : appendFinish c s sector e.elem = .ok { s with
      flash := update s.flash sector ((s.flash sector).put (markerOff c e.elem)
        (endmarker c s.flash sector (Item.stored ⟨e, false⟩) ::
          replicate (c.align - 1) 0xff)) } := by
    unfold appendFinish
    rw [hend]
    simp [show (Item.stored ⟨e, false⟩).2 = e.elem from rfl, hwrite]
  refine ⟨_, hfinish, rfl, ?_⟩
  have hsectors := h.toSectors.touch ⟨e, true⟩ hi hs
    (Cells.sameOff_put.widen (by dsimp only at *; omega) (by rw [hlen, hbehind])) rfl (lies_finish hlies)
  exact { hsectors with
    active_eq := h.active_eq
    id_eq := h.id_eq }

theorem writeData (hi : ⟨e, false⟩ ∈ live) (hs : e.sector = some sector)
    (hin : off + bs.length ≤ lenInFlash c e.elem.dataLen) :
    Layout c { s with
      flash := update s.flash sector ((s.flash sector).put (e.elem.dataOff + off) bs) }
      live k first := by
  have hlies := h.lies hi hs
  obtain ⟨h1, -⟩ := hlies.bounds
  have hsectors := h.toSectors.touch ⟨e, false⟩ hi hs
    (Cells.sameOff_put.widen (by dsimp only at *; omega) (by unfold behind markerOff; dsimp only; omega)) rfl
    (lies_write hlies rfl hin)
  have hlive : live.map (fun j => if j.entry = e then ⟨e, false⟩ else j) = live := by
    refine (map_congr_left fun j hj => ?_).trans (map_id _)
    split
    next heq => exact h.eq_of_entry_eq hi hj heq.symm
    next => rfl
  rw [hlive] at hsectors
  exact { hsectors with
    active_eq := h.active_eq
    id_eq := h.id_eq }

theorem rotate (hvalid : c.Valid) :
    ∃ s', rotate c s = (.ok (), s') ∧
      Layout c s' (live.filter fun i => i.entry.sector ≠ some s.oldest) (k - 1) (first + 1) := by
  have h0 := nth_zero h.oldest_lt
  have hnext : getnextSector c s.oldest = nth c s.oldest 1 := by
    rw [← getnextSector_nth h.pos, h0]
  have hklt := h.lt
  unfold Fcb.rotate
  cases k with
  | zero =>
    have hactive : s.activeSector = s.oldest := by rw [h.active_eq, h0]
    have hid : (s.activeId + 1) % 2 ^ 16 = (first + 1) % 2 ^ 16 := by
      rw [h.id_eq]
      omega
    simp only [hactive, hnext]
    rw [openSector_eq (hvalid.size _ (nth_lt h.pos ..))]
    refine ⟨_, rfl, ?_⟩
    exact { h.toSectors.restart hvalid hid with
      active_eq := (nth_zero (nth_lt h.pos ..)).symm
      id_eq := hid }
  | succ k =>
    have hactive : s.oldest ≠ s.activeSector := by
      rw [h.active_eq]
      intro heq
      have hinj := nth_inj h.pos hklt (h0.trans heq)
      omega
    simp only [if_neg hactive, hnext]
    refine ⟨_, rfl, ?_⟩
    exact { h.toSectors.drop with
      active_eq := by
        rw [nth_nth, add_comm 1]
        exact h.active_eq
      id_eq := by
        rw [h.id_eq, add_assoc, add_comm 1]
        rfl }

end

end Layout

variable {s' : State} {fin fuel id oldest : ℕ} {loc : Elem} {ps : List (ℕ × Elem)}

theorem idGt_iff : idGt a b = true ↔ int16 b < int16 a := by
  unfold idGt
  rw [decide_eq_true_iff]
  omega

theorem int16_succ (hlt : x < 2 ^ 16) (hne : x ≠ 0x7fff) :
    int16 ((x + 1) % 2 ^ 16) = int16 x + 1 := by
  unfold int16
  rw [Int.bmod_def, Int.bmod_def]
  split <;> split <;> omega

theorem int16_le (x : ℕ) : int16 x ≤ 0x7fff := by
  unfold int16
  rw [Int.bmod_def]
  split <;> omega

theorem eq_of_int16_eq_max (hlt : x < 2 ^ 16) (h : int16 x = 0x7fff) : x = 0x7fff := by
  unfold int16 at h
  rw [Int.bmod_def] at h
  split at h <;> omega

def headerId (c : Config) (f : Flash) (sector : ℕ) : Option ℕ :=
  match sectorHdrRead c f sector with
  | .ok id => id
  | .error _ => none

/-- The oldest and the newest of the sectors that were looked at, by the numbers that the ids are as
`int16_t`. -/
structure Extremes (c : Config) (f : Flash) (seen : List ℕ) (r : Found) : Prop where
  oldest_mem : r.oldestSector ∈ seen
  newest_mem : r.newestSector ∈ seen
  oldest : headerId c f r.oldestSector = some r.oldest
  newest : headerId c f r.newestSector = some r.newest
  range : ∀ a ∈ seen, ∀ id, headerId c f a = some id →
    int16 r.oldest ≤ int16 id ∧ int16 id ≤ int16 r.newest

def Sees (c : Config) (f : Flash) (seen : List ℕ) : Option Found → Prop
  | none => ∀ a ∈ seen, headerId c f a = none
  | some r => Extremes c f seen r

theorem Sees.skip (h : Sees c f seen r) (hid : headerId c f sector = none) :
    Sees c f (seen ++ [sector]) r := by
  cases r with
  | none =>
    intro a ha
    obtain ha | ha := mem_append.1 ha
    · exact h a ha
    · rw [mem_singleton.1 ha, hid]
  | some r =>
    refine ⟨mem_append_left _ h.oldest_mem, mem_append_left _ h.newest_mem, h.oldest,
      h.newest, fun a ha id ha' => ?_⟩
    obtain ha | ha := mem_append.1 ha
    · exact h.range a ha id ha'
    · rw [mem_singleton.1 ha, hid] at ha'
      simp at ha'

theorem Sees.see (h : Sees c f seen r) (hid : headerId c f sector = some id) :
    Sees c f (seen ++ [sector]) (some (Found.see sector id r)) := by
  have hlast : sector ∈ seen ++ [sector] := mem_append_right _ mem_cons_self
  cases r with
  | none =>
    refine ⟨hlast, hlast, hid, hid, fun a ha id' ha' => ?_⟩
    obtain ha | ha := mem_append.1 ha
    · exact absurd ((h a ha).symm.trans ha') nofun
    · rw [mem_singleton.1 ha, hid] at ha'
      obtain rfl := Option.some.inj ha'
      exact ⟨le_refl _, le_refl _⟩
  | some r =>
    have hr := h.range r.newestSector h.newest_mem r.newest h.newest
    have hold : ∀ a ∈ seen ++ [sector], ∀ id', headerId c f a = some id' →
        (int16 r.oldest ≤ int16 id' ∧ int16 id' ≤ int16 r.newest) ∨ id' = id := by
      intro a ha id' ha'
      obtain ha | ha := mem_append.1 ha
      · exact .inl (h.range a ha id' ha')
      · rw [mem_singleton.1 ha, hid] at ha'
        exact .inr (Option.some.inj ha').symm
    simp only [Found.see]
    split
    next hgt =>
      rw [idGt_iff] at hgt
      refine ⟨mem_append_left _ h.oldest_mem, hlast, h.oldest, hid, fun a ha id' ha' => ?_⟩
      obtain hin | rfl := hold a ha id' ha'
      · exact ⟨hin.1, by dsimp only; omega⟩
      · exact ⟨by dsimp only; omega, le_refl _⟩
    next hnew =>
      rw [idGt_iff] at hnew
      split
      next hgt =>
        rw [idGt_iff] at hgt
        refine ⟨hlast, mem_append_left _ h.newest_mem, hid, h.newest, fun a ha id' ha' => ?_⟩
        obtain hin | rfl := hold a ha id' ha'
        · exact ⟨by dsimp only; omega, hin.2⟩
        · exact ⟨le_refl _, by dsimp only; omega⟩
      next hle =>
        rw [idGt_iff] at hle
        refine ⟨mem_append_left _ h.oldest_mem, mem_append_left _ h.newest_mem, h.oldest,
          h.newest, fun a ha id' ha' => ?_⟩
        obtain hin | rfl := hold a ha id' ha'
        · exact hin
        · omega

theorem findSectors_sees (hread : ∀ a ∈ l, sectorHdrRead c f a = .ok (headerId c f a))
    (h : Sees c f seen r) :
    ∃ r', findSectors c f l r = .ok r' ∧ Sees c f (seen ++ l) r' := by
  induction l generalizing seen r with
  | nil => exact ⟨r, rfl, by rwa [append_nil]⟩
  | cons a l ih =>
    have hrest : ∀ b ∈ l, sectorHdrRead c f b = .ok (headerId c f b) :=
      fun b hb => hread b (mem_cons_of_mem _ hb)
    unfold findSectors
    rw [hread a mem_cons_self, append_cons]
    cases hid : headerId c f a with
    | none => exact ih hrest (h.skip hid)
    | some id => exact ih hrest (h.see hid)

theorem exists_sees (hread : ∀ a ∈ l, sectorHdrRead c f a = .ok (headerId c f a)) :
    ∃ r, findSectors c f l none = .ok r ∧ Sees c f l r := by
  have hnone : Sees c f [] none := nofun
  exact findSectors_sees hread hnone

theorem findEnd_eq (loc : Elem) (h : Chain c f sector loc.elemOff ps (.free fin))
    (hfuel : ps.length < fuel) :
    ∃ loc', findEnd c f sector fuel loc = .ok loc' ∧ loc'.elemOff = fin := by
  induction fuel generalizing loc ps with
  | zero => omega
  | succ fuel ih =>
    unfold findEnd
    cases h with
    | free hat =>
      rw [inSector_none hat]
      exact ⟨loc, rfl, rfl⟩
    | @elem _ p ps _ hat hfits hrest =>
      rw [length_cons] at hfuel
      obtain ⟨q, t, hq, hr⟩ | ⟨-, ⟨loc', hfin, hr⟩ | ⟨loc', hfin, -⟩⟩ :=
        (inSector_yields hat hfits hrest).cases_marked
      · obtain ⟨l, r, rfl, -⟩ := exists_of_marked (u := []) hq
        obtain ⟨hat', hfits', hrest'⟩ := hrest.split
        rw [hr]
        refine ih q.2 (.elem hat' hfits' hrest') ?_
        rw [length_append, length_cons] at hfuel
        rw [length_cons]
        omega
      · rw [hr]
        exact ⟨loc', rfl, (Ending.free.inj hfin).symm⟩
      · simp at hfin

theorem Content.length_le (h : Content c f sector off items fin) :
    off + items.length ≤ max off (c.sectorSize sector) := by
  induction h with
  | nil _ => exact Nat.le_max_left ..
  | cons hlies hoff _ ih =>
    have hb := hlies.bounds
    have hfits := hlies.fits
    rw [length_cons]
    omega

namespace Sectors

section

variable (h : Sectors c f oldest fin live k first)
include h

theorem headerId_nth (hn : n ≤ k) :
    headerId c f (nth c oldest n) = some ((first + n) % 2 ^ 16) := by
  rw [headerId, h.header n hn]

theorem hdrRead_eq (hvalid : c.Valid) (hlt : sector < c.sectorCnt) :
    sectorHdrRead c f sector = .ok (headerId c f sector) := by
  obtain ⟨n, hn, rfl⟩ := exists_nth h.oldest_lt hlt
  by_cases hle : n ≤ k
  · rw [h.header n hle, h.headerId_nth hle]
  · have hread := hdrRead_erased (h.free n (by omega) hn)
      (le_trans (by decide) (hvalid.size _ hlt))
    rw [headerId, hread]

theorem exists_of_headerId (hvalid : c.Valid) (hlt : sector < c.sectorCnt)
    (hid : headerId c f sector = some id) :
    ∃ n ≤ k, nth c oldest n = sector ∧ id = (first + n) % 2 ^ 16 := by
  obtain ⟨n, hn, rfl⟩ := exists_nth h.oldest_lt hlt
  by_cases hle : n ≤ k
  · exact ⟨n, hle, rfl, Option.some.inj (hid.symm.trans (h.headerId_nth hle))⟩
  · have hread := hdrRead_erased (h.free n (by omega) hn)
      (le_trans (by decide) (hvalid.size _ hlt))
    rw [headerId, hread] at hid
    simp at hid

theorem exists_extremes (hvalid : c.Valid) :
    ∃ r, findSectors c f (range c.sectorCnt) none = .ok (some r) ∧
      Extremes c f (range c.sectorCnt) r := by
  obtain ⟨r, hfind, hsees⟩ := exists_sees
    fun a ha => h.hdrRead_eq hvalid (mem_range.1 ha)
  cases r with
  | none =>
    have hnone := hsees _ (mem_range.2 (nth_lt h.pos oldest 0))
    exact absurd (hnone.symm.trans (h.headerId_nth (Nat.zero_le _))) nofun
  | some r => exact ⟨r, hfind, hsees⟩

end

end Sectors

/-- Ids in use are on both sides of where they go from 32767 to -32768 as `int16_t`. -/
def Straddles (c : Config) (f : Flash) : Prop :=
  (∃ a < c.sectorCnt, headerId c f a = some 0x7fff) ∧ ∃ b < c.sectorCnt, headerId c f b = some 0x8000

instance : Decidable (Straddles c f) := inferInstanceAs (Decidable (_ ∧ _))

namespace Sectors

section

variable (h : Sectors c f oldest fin live k first)
include h

theorem int16_id (hns : ¬ Straddles c f) (hn : n ≤ k) :
    int16 ((first + n) % 2 ^ 16) = int16 (first % 2 ^ 16) + n := by
  induction n with
  | zero => simp
  | succ n ih =>
    have hne : (first + n) % 2 ^ 16 ≠ 0x7fff := by
      intro heq
      apply hns
      refine ⟨⟨_, nth_lt h.pos oldest n, ?_⟩, ⟨_, nth_lt h.pos oldest (n + 1), ?_⟩⟩
      · rw [h.headerId_nth (by omega), heq]
      · rw [h.headerId_nth hn]
        congr 1
        omega
    rw [show (first + (n + 1)) % 2 ^ 16 = ((first + n) % 2 ^ 16 + 1) % 2 ^ 16 by omega, int16_succ (Nat.mod_lt _ (by decide)) hne]
    omega

theorem exists_of_straddles (hvalid : c.Valid) (hs : Straddles c f) :
    ∃ n, n + 1 ≤ k ∧ (first + n) % 2 ^ 16 = 0x7fff := by
  obtain ⟨⟨a, ha, hida⟩, ⟨b, hb, hidb⟩⟩ := hs
  obtain ⟨m, hm, -, hidm⟩ := h.exists_of_headerId hvalid ha hida
  obtain ⟨n, hn, -, hidn⟩ := h.exists_of_headerId hvalid hb hidb
  have hcnt := hvalid.cnt
  have hlt := h.lt
  exact ⟨m, by omega, hidm.symm⟩

theorem extremes_cases (hvalid : c.Valid) (hr : Extremes c f (range c.sectorCnt) r) :
    ¬ Straddles c f ∧ r.oldestSector = oldest ∧ r.newestSector = nth c oldest k ∧
        r.newest = (first + k) % 2 ^ 16 ∨
      Straddles c f ∧ r.newestSector ≠ nth c oldest k ∧ r.newest = 0x7fff := by
  have hlt := h.lt
  have hcnt := hvalid.cnt
  obtain ⟨m, hm, hmsec, hmid⟩ := h.exists_of_headerId hvalid (mem_range.1 hr.newest_mem) hr.newest
  obtain ⟨n, hn, hnsec, hnid⟩ := h.exists_of_headerId hvalid (mem_range.1 hr.oldest_mem) hr.oldest
  have hrange : ∀ p ≤ k, int16 r.oldest ≤ int16 ((first + p) % 2 ^ 16) ∧
      int16 ((first + p) % 2 ^ 16) ≤ int16 r.newest := fun p hp =>
    hr.range _ (mem_range.2 (nth_lt h.pos oldest p)) _ (h.headerId_nth hp)
  by_cases hs : Straddles c f
  · right
    obtain ⟨p, hp, hid⟩ := h.exists_of_straddles hvalid hs
    have hmax := (hrange p (by omega)).2
    have htop := int16_le r.newest
    have hnewest : r.newest = 0x7fff := by
      refine eq_of_int16_eq_max (by omega) (le_antisymm htop ?_)
      rw [hid] at hmax
      exact hmax
    refine ⟨hs, fun heq => ?_, hnewest⟩
    have hmk := nth_inj (by omega) hlt (hmsec.trans heq)
    omega
  · left
    have hk := (hrange k le_rfl).2
    have h0 := (hrange 0 (Nat.zero_le _)).1
    rw [hmid, h.int16_id hs le_rfl, h.int16_id hs hm] at hk
    rw [hnid, h.int16_id hs hn, h.int16_id hs (Nat.zero_le _)] at h0
    obtain rfl : m = k := le_antisymm hm (Int.ofNat_le.1 (le_of_add_le_add_left hk))
    obtain rfl : n = 0 := Nat.le_zero.1 (Int.ofNat_le.1 (le_of_add_le_add_left h0))
    exact ⟨hs, by rw [← hnsec, nth_zero h.oldest_lt], hmsec.symm, hmid⟩

end

end Sectors

structure Config.Checked (c : Config) : Prop where
  scratch : ¬ c.sectorCnt < c.scratchCnt + 1
  align_ne : c.align ≠ 0
  align_le : ¬ c.align > writeAlignmentBufferSize

theorem checked_of_init (h : init c f = .ok s) : c.Checked := by
  unfold init at h
  by_cases h1 : c.sectorCnt < c.scratchCnt + 1
  · rw [if_pos h1] at h
    exact absurd h (by simp [bind, Except.bind])
  by_cases h2 : c.align = 0
  · rw [if_pos h2] at h
    exact absurd h (by simp [bind, Except.bind])
  by_cases h3 : c.align > writeAlignmentBufferSize
  · rw [if_neg h1, if_neg h2, if_pos h3] at h
    exact absurd h (by simp [bind, Except.bind])
  exact ⟨h1, h2, h3⟩

theorem init_eq (hc : c.Checked)
    (hfind : findSectors c f (range c.sectorCnt) none = .ok (some r))
    (hend : findEnd c f r.newestSector (c.sectorSize r.newestSector + 1) ⟨firstOff c, 0, 0⟩ =
      .ok active) : init c f = .ok ⟨f, r.oldestSector, r.newestSector, active, r.newest⟩ := by
  unfold init
  rw [if_neg hc.scratch, if_neg hc.align_ne, if_neg hc.align_le, hfind]
  unfold firstOff at hend
  simp [bind, Except.bind, pure, Except.pure, hend]

def blank (c : Config) : Flash := fun _ _ => c.eraseValue

def booted (c : Config) : State := ⟨withHeader c (blank c) 0 0, 0, 0, ⟨firstOff c, 0, 0⟩, 0⟩

theorem erased_blank (sector off : ℕ) : Erased c (blank c) sector off := fun _ _ _ => rfl

theorem layout_booted (hvalid : c.Valid) (hpos : 0 < c.sectorCnt) : Layout c (booted c) [] 0 0 := by
  have hsectors : Sectors c (withHeader c (blank c) 0 0) 0 (firstOff c) [] 0 0 := by
    refine ⟨hpos, hpos, fun n hn => ?_, fun n hn => ?_, fun n h1 h2 => ?_, rfl⟩
    · obtain rfl : n = 0 := by omega
      exact hdrRead_withHeader hvalid.magic (le_trans (by decide) (hvalid.size 0 hpos))
    · obtain rfl : n = 0 := by omega
      exact ⟨_, .nil (erased_withHeader (erased_blank 0 0)), fun _ => rfl⟩
    have hne : nth c 0 n ≠ 0 := by
      intro heq
      have hinj := nth_inj h2 hpos (heq.trans (nth_zero hpos).symm)
      omega
    intro a _ _
    rw [show withHeader c _ _ _ _ = _ from Function.update_of_ne hne ..]
    rfl
  exact { hsectors with
    active_eq := (nth_zero hpos).symm
    id_eq := rfl }

theorem init_blank (hvalid : c.Valid) (hc : c.Checked) : init c (blank c) = .ok (booted c) := by
  have hpos : 0 < c.sectorCnt := by
    have hscratch := hc.scratch
    omega
  have hread : ∀ a < c.sectorCnt, sectorHdrRead c (blank c) a = .ok none := fun a ha =>
    hdrRead_erased (erased_blank a 0) (le_trans (by decide) (hvalid.size a ha))
  have hid : ∀ a < c.sectorCnt, headerId c (blank c) a = none := by
    intro a ha
    rw [headerId, hread a ha]
  obtain ⟨r, hfind, hsees⟩ := exists_sees (c := c) (f := blank c) (l := range c.sectorCnt)
    fun a ha => by rw [hread a (mem_range.1 ha), hid a (mem_range.1 ha)]
  cases r with
  | some r =>
    have hnewest := hsees.newest
    rw [hid _ (mem_range.1 hsees.newest_mem)] at hnewest
    simp at hnewest
  | none =>
    have hempty : elemAt c (withHeader c (blank c) 0 0) 0 (firstOff c) = none :=
      elemAt_erased (erased_withHeader (erased_blank 0 0))
    have hend : findEnd c (withHeader c (blank c) 0 0) 0 (c.sectorSize 0 + 1) ⟨firstOff c, 0, 0⟩ =
        .ok ⟨firstOff c, 0, 0⟩ := by
      unfold findEnd
      rw [inSector_none hempty]
    unfold init booted
    rw [if_neg hc.scratch, if_neg hc.align_ne, if_neg hc.align_le, hfind]
    unfold firstOff at hend ⊢
    simp [bind, Except.bind, pure, Except.pure, hdrInit_eq (hvalid.size 0 hpos), hend]

/-- What a restart is to keep of a running buffer. -/
structure Restored (s s' : State) : Prop where
  flash : s'.flash = s.flash
  oldest : s'.oldest = s.oldest
  activeSector : s'.activeSector = s.activeSector
  activeId : s'.activeId = s.activeId
  elemOff : s'.active.elemOff = s.active.elemOff

namespace Layout

theorem of_restored (h : Layout c s live k first) (hr : Restored s s') : Layout c s' live k first where
  toSectors := by
    rw [hr.flash, hr.oldest, hr.elemOff]
    exact h.toSectors
  active_eq := by rw [hr.activeSector, hr.oldest, h.active_eq]
  id_eq := by rw [hr.activeId, h.id_eq]

theorem init (h : Layout c s live k first) (hvalid : c.Valid) (hc : c.Checked) :
    ∃ s', init c s.flash = .ok s' ∧ (¬ Straddles c s.flash ∧ Restored s s' ∨
      Straddles c s.flash ∧ s'.activeSector ≠ s.activeSector ∧ s'.activeId = 0x7fff) := by
  obtain ⟨r, hfind, hr⟩ := h.exists_extremes hvalid
  obtain ⟨n, hn, hsec, -⟩ := h.exists_of_headerId hvalid (mem_range.1 hr.newest_mem) hr.newest
  obtain ⟨off, hcontent, hoff⟩ := h.content n hn
  rw [hsec] at hcontent
  have hfuel := hcontent.length_le
  have hlen : ((inSector live r.newestSector).map Item.stored).length <
      c.sectorSize r.newestSector + 1 := by
    rw [length_map]
    omega
  obtain ⟨active, hend, hactive⟩ := findEnd_eq ⟨firstOff c, 0, 0⟩ hcontent.chain hlen
  refine ⟨_, init_eq hc hfind hend, ?_⟩
  obtain ⟨hns, hold, hnew, hid⟩ | ⟨hs, hne, hid⟩ := h.extremes_cases hvalid hr
  · left
    have hnk : n = k := nth_inj (by have := h.lt; omega) h.lt (hsec.trans hnew)
    exact ⟨hns, rfl, hold, hnew.trans h.active_eq.symm, hid.trans h.id_eq.symm,
      hactive.trans (hoff hnk)⟩
  · exact .inr ⟨hs, fun heq => hne (heq.trans h.active_eq), hid⟩

end Layout

end ZephyrRtos.Fcb
