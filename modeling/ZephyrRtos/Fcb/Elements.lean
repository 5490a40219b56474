import ZephyrRtos.Fcb.Model

/-! The elements of a sector: what `fcb_elem_info` says of an offset, and the chain of elements that
follow each other from one on. -/

namespace ZephyrRtos.Fcb

open List Lib Sys

variable {c : Config} {f : Flash} {sector off len : ℕ} {loc : Elem} {p : ℕ × Elem}

theorem le_lenInFlash (len : ℕ) : len ≤ lenInFlash c len := by
  unfold lenInFlash
  split
  · exact Nat.le_refl _
  · have hle : (len + (c.align - 1)) &&& (c.align - 1) ≤ c.align - 1 := Nat.and_le_right
    omega

variable (c f sector)

/-- The element whose length is at an offset, with the number of bytes of the length. -/
def elemAt (off : ℕ) : Option (ℕ × Elem) :=
  if off + 2 ≤ c.sectorSize sector then
    match getLen c (f sector off) (f sector (off + 1)) with
    | .error _ => none
    | .ok (cnt, len) => some (cnt, ⟨off, off + lenInFlash c cnt, len⟩)
  else none

def Fits (loc : Elem) : Prop := markerOff c loc + 1 ≤ c.sectorSize sector

instance : Decidable (Fits c sector loc) := inferInstanceAs (Decidable (_ ≤ _))

def crcOf (p : ℕ × Elem) : UInt8 :=
  crc8Ccitt 0xff ((f sector).slice p.2.elemOff p.1 ++ (f sector).slice p.2.dataOff p.2.dataLen)

/-- The end marker of an element is there: it is the CRC or, where the CRC is disabled, the fixed
one. -/
def Marked (p : ℕ × Elem) : Prop :=
  f sector (markerOff c p.2) = crcOf f sector p ∨
  (c.allowFixedEndmarker ∧ c.crcDisabled) ∧ f sector (markerOff c p.2) = fixedEndmarker

instance : Decidable (Marked c f sector p) := inferInstanceAs (Decidable (_ ∨ _))

variable {c f sector}

theorem elemOff_of_elemAt (h : elemAt c f sector off = some p) : p.2.elemOff = off := by
  unfold elemAt at h
  split at h
  · split at h
    · simp at h
    · rw [← Option.some.inj h]
  · simp at h

theorem lt_of_elemAt (h : elemAt c f sector off = some p) : off + 2 ≤ c.sectorSize sector := by
  unfold elemAt at h
  split at h
  · assumption
  · simp at h

theorem getLen_error (h : getLen c b0 b1 = .error e) : e = .notsup := by
  unfold getLen at h
  simp only at h
  split at h
  · split at h
    · exact (Except.error.inj h).symm
    · simp at h
  · simp at h

theorem getLen_range (h : getLen c b0 b1 = .ok (cnt, len)) : 1 ≤ cnt ∧ cnt ≤ 2 := by
  unfold getLen at h
  simp only at h
  split at h
  · split at h
    · simp at h
    · have heq := (Prod.mk.inj (Except.ok.inj h)).1
      omega
  · have heq := (Prod.mk.inj (Except.ok.inj h)).1
    omega

theorem lt_behind (h : elemAt c f sector off = some p) : off + 2 ≤ behind c p.2 := by
  unfold elemAt at h
  split at h
  case isFalse => simp at h
  split at h
  · simp at h
  next cnt len hlen =>
  have hcnt := getLen_range hlen
  have h1 := le_lenInFlash (c := c) cnt
  have h2 := le_lenInFlash (c := c) crcSz
  rw [← Option.some.inj h]
  unfold behind markerOff
  unfold crcSz at *
  dsimp only
  omega

theorem elemLen_eq : elemLen c f sector loc = match elemAt c f sector loc.elemOff with
    | none => .error .notsup
    | some p => .ok ((f sector).slice p.2.elemOff p.1, p.2) := by
  unfold elemLen elemAt
  by_cases h : loc.elemOff + 2 ≤ c.sectorSize sector
  · have hread : flashRead c f sector loc.elemOff 2 =
        .ok [f sector loc.elemOff, f sector (loc.elemOff + 1)] := by
      rw [flashRead, if_neg (by omega)]
      rfl
    rw [if_pos h, if_neg (by omega), hread]
    simp only [getD_cons_zero, getD_cons_succ]
    cases hlen : getLen c (f sector loc.elemOff) (f sector (loc.elemOff + 1)) with
    | error e => rw [getLen_error hlen]
    | ok r =>
      obtain ⟨cnt, len⟩ := r
      obtain ⟨h1, h2⟩ := getLen_range hlen
      obtain rfl | rfl : cnt = 1 ∨ cnt = 2 := by omega
      · rfl
      · rfl
  · rw [if_neg h, if_pos (by omega)]

theorem crc8Loop_eq (hle : off ≤ fin) (hblocks : fin - off ≤ blocks) :
    crc8Loop c f sector blocks off fin crc8 =
      if fin ≤ c.sectorSize sector ∨ off = fin then
        .ok (crc8Ccitt crc8 ((f sector).slice off (fin - off))) else .error .io := by
  induction blocks generalizing off crc8 with
  | zero =>
    obtain rfl : off = fin := by omega
    rw [if_pos (.inr rfl), Nat.sub_self]
    rfl
  | succ blocks ih =>
    unfold crc8Loop
    by_cases hlt : off < fin
    · rw [if_pos hlt]
      simp only [flashRead]
      by_cases hin : off + min (fin - off) 32 ≤ c.sectorSize sector
      · rw [if_neg (by omega)]
        simp only
        rw [ih (by omega) (by omega)]
        by_cases hfin : fin ≤ c.sectorSize sector
        · rw [if_pos (.inl hfin), if_pos (.inl hfin), ← crc8Ccitt_append,
            ← Cells.slice_add, ← Nat.sub_sub, Nat.add_sub_cancel' (Nat.min_le_left ..)]
        · rw [if_neg (by omega), if_neg (by omega)]
      · rw [if_pos (by omega), if_neg (by omega)]
    · obtain rfl : off = fin := by omega
      rw [if_neg hlt, if_pos (.inr rfl), Nat.sub_self]
      rfl

theorem elemCrc8_eq : elemCrc8 c f sector loc = match elemAt c f sector loc.elemOff with
    | none => (.error .notsup, loc)
    | some p => (if p.2.dataOff + p.2.dataLen ≤ c.sectorSize sector ∨ p.2.dataLen = 0 then
        .ok (crcOf f sector p) else .error .io, p.2) := by
  unfold elemCrc8
  rw [elemLen_eq]
  cases elemAt c f sector loc.elemOff with
  | none => rfl
  | some p =>
    simp only
    rw [crc8Loop_eq (Nat.le_add_right ..) (by omega), ← crc8Ccitt_append, Nat.add_sub_cancel_left]
    refine Prod.ext ?_ rfl
    refine if_congr ?_ rfl rfl
    omega

theorem elemInfo_eq : elemInfo c f sector loc = match elemAt c f sector loc.elemOff with
    | none => (.error .notsup, loc)
    | some p => (if Fits c sector p.2 then if Marked c f sector p then .ok () else .error .badmsg
        else .error .io, p.2) := by
  unfold elemInfo elemEndmarker
  cases hat : elemAt c f sector loc.elemOff with
  | none =>
    have hend : (if c.allowFixedEndmarker ∧ c.crcDisabled then elemEndmarkerFixed c f sector loc
        else elemCrc8 c f sector loc) = (.error .notsup, loc) := by
      split
      · simp [elemEndmarkerFixed, elemLen_eq, hat]
      · simp [elemCrc8_eq, hat]
    rw [hend]
  | some p =>
    have hagain : elemAt c f sector p.2.elemOff = some p := by rw [elemOff_of_elemAt hat, hat]
    have hread : flashRead c f sector (markerOff c p.2) 1 =
        if Fits c sector p.2 then .ok [f sector (markerOff c p.2)] else .error .inval := by
      by_cases hfits : Fits c sector p.2
      · rw [if_pos hfits, flashRead, if_neg (Nat.not_lt.2 hfits)]
        rfl
      · rw [if_neg hfits, flashRead, if_pos (Nat.lt_of_not_le hfits)]
    have hdata : Fits c sector p.2 →
        p.2.dataOff + p.2.dataLen ≤ c.sectorSize sector ∨ p.2.dataLen = 0 := by
      intro hfits
      have hle := le_lenInFlash (c := c) p.2.dataLen
      unfold Fits markerOff at hfits
      omega
    by_cases hfixed : (c.allowFixedEndmarker ∧ c.crcDisabled : Prop)
    · simp only [if_pos hfixed, elemEndmarkerFixed, elemLen_eq, hat, hread]
      by_cases hfits : Fits c sector p.2
      · simp only [if_pos hfits, elemCrc8_eq, Marked]
        split <;> split <;> simp_all
      · simp [if_neg hfits]
    simp only [if_neg hfixed, elemCrc8_eq, hat]
    by_cases hfits : Fits c sector p.2
    · simp only [if_pos (hdata hfits), hread, if_pos hfits, getD_cons_zero, Marked]
      split <;> split <;> simp_all
    · by_cases hd : p.2.dataOff + p.2.dataLen ≤ c.sectorSize sector ∨ p.2.dataLen = 0
      · simp [if_pos hd, hread, if_neg hfits]
      · simp [if_neg hd, if_neg hfits]

/-- Where a chain of elements ends: at an offset that no element is at, or at one that goes past the
end of the sector. -/
inductive Ending
  | free (off : ℕ)
  | damaged (loc : Elem)

/-- The elements that follow each other from an offset on, each with the bytes of its length. -/
inductive Chain (c : Config) (f : Flash) (sector : ℕ) : ℕ → List (ℕ × Elem) → Ending → Prop
  | free {off : ℕ} : elemAt c f sector off = none → Chain c f sector off [] (.free off)
  | damaged {off : ℕ} {p : ℕ × Elem} : elemAt c f sector off = some p → ¬ Fits c sector p.2 →
      Chain c f sector off [] (.damaged p.2)
  | elem {off : ℕ} {p : ℕ × Elem} {ps : List (ℕ × Elem)} {fin : Ending} :
      elemAt c f sector off = some p → Fits c sector p.2 →
      Chain c f sector (behind c p.2) ps fin → Chain c f sector off (p :: ps) fin

inductive Yields (c : Config) (f : Flash) (sector : ℕ) :
    List (ℕ × Elem) → Ending → Except Errno Unit × Elem → Prop
  | found {p : ℕ × Elem} {ps : List (ℕ × Elem)} {fin : Ending} :
      Marked c f sector p → Yields c f sector (p :: ps) fin (.ok (), p.2)
  | skip {p : ℕ × Elem} {ps : List (ℕ × Elem)} {fin : Ending} {r : Except Errno Unit × Elem} :
      ¬ Marked c f sector p → Yields c f sector ps fin r → Yields c f sector (p :: ps) fin r
  | free (loc : Elem) : Yields c f sector [] (.free loc.elemOff) (.error .notsup, loc)
  | damaged {loc : Elem} : Yields c f sector [] (.damaged loc) (.error .io, loc)

theorem exists_chain (c : Config) (f : Flash) (sector off : ℕ) : ∃ ps fin, Chain c f sector off ps fin := by
  -- each element starts behind the one before, and in the sector
  induction hn : c.sectorSize sector - off using Nat.strongRecOn generalizing off with
  | ind n ih =>
    cases hat : elemAt c f sector off with
    | none => exact ⟨_, _, .free hat⟩
    | some p =>
      have hlt := lt_of_elemAt hat
      have hbehind := lt_behind hat
      by_cases hfits : Fits c sector p.2
      · obtain ⟨ps, fin, h⟩ := ih _ (by omega) (behind c p.2) rfl
        exact ⟨_, _, .elem hat hfits h⟩
      · exact ⟨_, _, .damaged hat hfits⟩

variable {ps ps' : List (ℕ × Elem)} {fin fin' : Ending}

theorem Chain.unique (h : Chain c f sector off ps fin) (h' : Chain c f sector off ps' fin') :
    ps = ps' ∧ fin = fin' := by
  induction h generalizing ps' with
  | free hat =>
    cases h' with
    | free _ => exact ⟨rfl, rfl⟩
    | damaged hat' _ | elem hat' _ _ => exact absurd (hat.symm.trans hat') nofun
  | damaged hat hfits =>
    cases h' with
    | free hat' => exact absurd (hat.symm.trans hat') nofun
    | damaged hat' _ =>
      rw [Option.some.inj (hat.symm.trans hat')]
      exact ⟨rfl, rfl⟩
    | elem hat' hfits' _ => exact absurd (Option.some.inj (hat.symm.trans hat') ▸ hfits') hfits
  | elem hat hfits _ ih =>
    cases h' with
    | free hat' => exact absurd (hat.symm.trans hat') nofun
    | damaged hat' hfits' => exact absurd (Option.some.inj (hat.symm.trans hat') ▸ hfits) hfits'
    | elem hat' _ hrest =>
      obtain rfl := Option.some.inj (hat.symm.trans hat')
      obtain ⟨rfl, rfl⟩ := ih hrest
      exact ⟨rfl, rfl⟩

theorem Chain.le_elemOff (h : Chain c f sector off ps fin) : ∀ p ∈ ps, off ≤ p.2.elemOff := by
  induction h with
  | free _ | damaged _ _ => exact nofun
  | @elem off p ps fin hat _ _ ih =>
    have hlt := lt_behind hat
    intro q hq
    obtain rfl | hq := mem_cons.1 hq
    · exact Nat.le_of_eq (elemOff_of_elemAt hat).symm
    · exact Nat.le_trans (by omega) (ih q hq)

theorem Chain.split (h : Chain c f sector off (l ++ p :: ps) fin) :
    elemAt c f sector p.2.elemOff = some p ∧ Fits c sector p.2 ∧
      Chain c f sector (behind c p.2) ps fin := by
  induction l generalizing off with
  | nil =>
    cases h with
    | elem hat hfits hrest => exact ⟨by rw [elemOff_of_elemAt hat, hat], hfits, hrest⟩
  | cons q l ih =>
    cases h with
    | elem _ _ hrest => exact ih hrest

theorem inSectorLoop_yields (h : Chain c f sector (behind c loc) ps fin) (hpos : 1 ≤ fuel)
    (hfuel : c.sectorSize sector < fuel + behind c loc) :
    Yields c f sector ps fin (getnextInSectorLoop c f sector fuel loc) := by
  induction fuel generalizing loc ps with
  | zero => omega
  | succ fuel ih =>
    unfold getnextInSectorLoop
    rw [elemInfo_eq]
    cases h with
    | free hat =>
      rw [hat]
      exact .free { loc with elemOff := behind c loc }
    | damaged hat hfits =>
      rw [hat]
      simp only [if_neg hfits]
      exact .damaged
    | @elem _ p ps _ hat hfits hrest =>
      have hlt := lt_of_elemAt hat
      have hbehind := lt_behind hat
      rw [hat]
      simp only [if_pos hfits]
      by_cases hmark : Marked c f sector p
      · rw [if_pos hmark]
        exact .found hmark
      · rw [if_neg hmark]
        exact .skip hmark (ih hrest (by omega) (by omega))

theorem inSector_yields (hat : elemAt c f sector loc.elemOff = some p)
    (hfits : Fits c sector p.2) (h : Chain c f sector (behind c p.2) ps fin) :
    Yields c f sector ps fin (getnextInSector c f sector loc) := by
  have hloop : Yields c f sector ps fin
      (getnextInSectorLoop c f sector (c.sectorSize sector + 1) p.2) := by
    apply inSectorLoop_yields h (by omega)
    omega
  unfold getnextInSector
  rw [elemInfo_eq, hat]
  simp only [if_pos hfits]
  by_cases hmark : Marked c f sector p
  · rwa [if_pos hmark]
  · rwa [if_neg hmark]

theorem inSector_none (hat : elemAt c f sector loc.elemOff = none) :
    getnextInSector c f sector loc = (.error .notsup, loc) := by
  unfold getnextInSector
  rw [elemInfo_eq, hat]

theorem inSector_damaged (hat : elemAt c f sector loc.elemOff = some p)
    (hfits : ¬ Fits c sector p.2) : getnextInSector c f sector loc = (.error .io, p.2) := by
  unfold getnextInSector
  rw [elemInfo_eq, hat]
  simp [if_neg hfits]

end ZephyrRtos.Fcb
