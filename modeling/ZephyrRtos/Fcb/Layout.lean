import Mathlib.Data.Nat.Bitwise
import ZephyrRtos.Fcb.Walk

/-! The contents of a sector in a running buffer: a header, the appended elements one after the
other, and behind them erased flash. -/

namespace ZephyrRtos.Fcb

open List Lib Sys

/-- An appended element, and whether `fcb_append_finish` was called for it. -/
structure Item where
  entry : Entry
  finished : Bool
  deriving DecidableEq

variable {c : Config} {f f' : Flash} {sector off fin len : ℕ} {i j : Item} {items : List Item}

def lenSize (len : ℕ) : ℕ := if len < 0x80 then 1 else 2

theorem lenSize_range (len : ℕ) : 1 ≤ lenSize len ∧ lenSize len ≤ 2 := by
  unfold lenSize
  split <;> omega

theorem length_putLen (h : putLen c len = .ok hdr) : hdr.length = lenSize len := by
  unfold putLen at h
  unfold lenSize
  split at h
  · rw [← Except.ok.inj h, if_pos (by assumption)]
    rfl
  · split at h
    · rw [← Except.ok.inj h, if_neg (by assumption)]
      rfl
    · simp at h

theorem xor_not_cancel (x ev : UInt8) : x ^^^ ~~~ev ^^^ ~~~ev = x := by
  rw [UInt8.xor_assoc, UInt8.xor_self, UInt8.xor_zero]

theorem xor_not_self (x : UInt8) : x ^^^ ~~~x = 0xff := by
  rw [← UInt8.xor_neg_one, ← UInt8.xor_assoc, UInt8.xor_self]
  rfl

theorem short_len_flag : ∀ len < 0x80, UInt8.ofNat len &&& 0x80 = 0 := by decide +kernel

theorem getLen_putLen (h : putLen c len = .ok ([b0, b1].take (lenSize len))) :
    getLen c b0 b1 = .ok (lenSize len, len) := by
  unfold putLen at h
  unfold getLen lenSize
  by_cases hshort : len < 0x80
  · rw [if_pos hshort, lenSize, if_pos hshort] at h
    obtain ⟨rfl, -⟩ := cons.inj (Except.ok.inj h)
    simp only [xor_not_cancel, if_pos hshort]
    rw [if_neg (by rw [short_len_flag len hshort]; simp), UInt8.toNat_ofNat',
      Nat.mod_eq_of_lt (by omega)]
  rw [if_neg hshort, lenSize] at h
  split at h
  case isFalse => simp at h
  next hmax =>
  unfold fcbMaxLen at hmax
  obtain ⟨rfl, hb1⟩ := cons.inj (Except.ok.inj h)
  obtain ⟨rfl, -⟩ := cons.inj hb1
  have hhigh : (UInt8.ofNat (len >>> 7)).toNat = len / 128 := by
    rw [UInt8.toNat_ofNat', Nat.shiftRight_eq_div_pow, Nat.mod_eq_of_lt (by omega)]
  have hlow : (UInt8.ofNat (len ||| 0x80) &&& 0x7f).toNat = len % 128 := by
    rw [UInt8.toNat_and, UInt8.toNat_ofNat']
    refine Nat.eq_of_testBit_eq fun n => ?_
    rw [show (UInt8.toNat 0x7f) = 2 ^ 7 - 1 from rfl, show (128 : ℕ) = 2 ^ 7 from rfl,
      Nat.testBit_and, Nat.testBit_mod_two_pow, Nat.testBit_or, Nat.testBit_two_pow_sub_one,
      Nat.testBit_mod_two_pow, Nat.testBit_two_pow]
    by_cases hn : n < 7
    · have h8 : n < 8 := by omega
      have h7 : ¬ 7 = n := by omega
      simp [hn, h8, h7]
    · simp [hn]
  have hflag : UInt8.ofNat (len ||| 0x80) &&& 0x80 ≠ 0 := by
    intro h0
    have hbit := congrArg (fun x => x.toNat.testBit 7) h0
    exact absurd hbit (by simp [show Nat.testBit 128 7 = true from rfl])
  have hwritten : ¬ (.ofNat (len ||| 0x80) ^^^ ~~~c.eraseValue = c.eraseValue ∧
      .ofNat (len >>> 7) ^^^ ~~~c.eraseValue = c.eraseValue) := by
    rintro ⟨-, h1⟩
    have hff : UInt8.ofNat (len >>> 7) = 0xff := by
      rw [← xor_not_cancel (.ofNat (len >>> 7)) c.eraseValue, h1, xor_not_self]
    rw [hff] at hhigh
    have h255 : (255 : ℕ) = len / 128 := hhigh
    omega
  simp only [xor_not_cancel, if_neg hshort]
  rw [if_pos hflag, if_neg hwritten, hlow, Nat.or_comm, ← Nat.shiftLeft_add_eq_or_of_lt
    (by omega)]
  congr 2
  omega

def Erased (c : Config) (f : Flash) (sector off : ℕ) : Prop :=
  ∀ a, off ≤ a → a < c.sectorSize sector → f sector a = c.eraseValue

def Item.stored (i : Item) : ℕ × Elem := (lenSize i.entry.elem.dataLen, i.entry.elem)

structure Lies (c : Config) (f : Flash) (sector : ℕ) (i : Item) : Prop where
  sector_eq : i.entry.sector = some sector
  len : putLen c i.entry.elem.dataLen =
    .ok ((f sector).slice i.entry.elem.elemOff (lenSize i.entry.elem.dataLen))
  dataOff : i.entry.elem.dataOff =
    i.entry.elem.elemOff + lenInFlash c (lenSize i.entry.elem.dataLen)
  fits : behind c i.entry.elem ≤ c.sectorSize sector
  marked : i.finished = true → Marked c f sector i.stored
  unmarked : i.finished = false → f sector (markerOff c i.entry.elem) = c.eraseValue

theorem Lies.bounds (h : Lies c f sector i) :
    i.entry.elem.elemOff + lenSize i.entry.elem.dataLen ≤ i.entry.elem.dataOff ∧
    i.entry.elem.dataOff + i.entry.elem.dataLen ≤ markerOff c i.entry.elem ∧
    markerOff c i.entry.elem + 1 ≤ behind c i.entry.elem := by
  have h1 := le_lenInFlash (c := c) (lenSize i.entry.elem.dataLen)
  have h2 := le_lenInFlash (c := c) i.entry.elem.dataLen
  have h3 := le_lenInFlash (c := c) crcSz
  have h4 := h.dataOff
  unfold behind markerOff
  unfold crcSz at *
  omega

theorem crcOf_congr (hlen : p.2.elemOff + p.1 ≤ p.2.dataOff)
    (h : Cells.SameOn (f sector) (f' sector) p.2.elemOff (p.2.dataOff + p.2.dataLen)) :
    crcOf f' sector p = crcOf f sector p := by
  unfold crcOf
  rw [Cells.slice_congr h.narrow, Cells.slice_congr h.narrow]

theorem Lies.frame (h : Lies c f sector i) (hsame : Cells.SameOn (f sector) (f' sector)
    i.entry.elem.elemOff (behind c i.entry.elem)) : Lies c f' sector i := by
  obtain ⟨h1, h2, h3⟩ := h.bounds
  have hcrc : crcOf f' sector i.stored = crcOf f sector i.stored :=
    crcOf_congr h1 (hsame.narrow le_rfl (show i.entry.elem.dataOff + i.entry.elem.dataLen ≤ _ by omega))
  have hmark : f' sector (markerOff c i.entry.elem) = f sector (markerOff c i.entry.elem) :=
    hsame _ (by omega) (by omega)
  refine ⟨h.sector_eq, ?_, h.dataOff, h.fits, fun hfin => ?_, fun hfin => ?_⟩
  · rw [Cells.slice_congr hsame.narrow]
    exact h.len
  · have hold := h.marked hfin
    unfold Marked at hold ⊢
    rwa [hcrc, show i.stored.2 = i.entry.elem from rfl, hmark]
  · rw [hmark]
    exact h.unmarked hfin

theorem Lies.elemAt (h : Lies c f sector i) :
    elemAt c f sector i.entry.elem.elemOff = some i.stored := by
  obtain ⟨h1, h2, h3⟩ := h.bounds
  obtain ⟨hone, htwo⟩ := lenSize_range i.entry.elem.dataLen
  have hfits := h.fits
  have hslice : (f sector).slice i.entry.elem.elemOff (lenSize i.entry.elem.dataLen) =
      [f sector i.entry.elem.elemOff, f sector (i.entry.elem.elemOff + 1)].take
        (lenSize i.entry.elem.dataLen) := by
    obtain heq | heq : lenSize i.entry.elem.dataLen = 1 ∨ lenSize i.entry.elem.dataLen = 2 := by
      omega
    · rw [heq]
      rfl
    · rw [heq]
      rfl
  have hlen := h.len
  rw [hslice] at hlen
  unfold Fcb.elemAt
  rw [if_pos (by omega), getLen_putLen hlen]
  simp only
  rw [← h.dataOff]
  rfl

theorem elemAt_erased (h : Erased c f sector off) : elemAt c f sector off = none := by
  unfold elemAt
  split
  · rw [h off le_rfl (by omega), h (off + 1) (by omega) (by omega)]
    have hgetLen : getLen c c.eraseValue c.eraseValue = .error .notsup := by
      unfold getLen
      simp only [xor_not_self]
      rw [if_pos (by decide), if_pos ⟨trivial, trivial⟩]
    rw [hgetLen]
  · rfl

/-- The elements of a sector from an offset on, up to where it is erased. -/
inductive Content (c : Config) (f : Flash) (sector : ℕ) : ℕ → List Item → ℕ → Prop
  | nil {off : ℕ} : Erased c f sector off → Content c f sector off [] off
  | cons {off fin : ℕ} {i : Item} {items : List Item} : Lies c f sector i →
      i.entry.elem.elemOff = off → Content c f sector (behind c i.entry.elem) items fin →
      Content c f sector off (i :: items) fin

namespace Content

section

variable (h : Content c f sector off items fin)
include h

theorem chain : Chain c f sector off (items.map Item.stored) (.free fin) := by
  induction h with
  | nil herased => exact .free (elemAt_erased herased)
  | @cons _ _ i _ hlies hoff _ ih =>
    have hbounds := hlies.bounds
    have hfits := hlies.fits
    refine .elem (hoff ▸ hlies.elemAt) ?_ ih
    show markerOff c i.entry.elem + 1 ≤ _
    omega

theorem erased : Erased c f sector fin := by
  induction h with
  | nil herased => exact herased
  | cons _ _ _ ih => exact ih

theorem lies (hi : i ∈ items) : Lies c f sector i := by
  induction h with
  | nil _ => cases hi
  | cons hlies _ _ ih =>
    obtain rfl | hi := mem_cons.1 hi
    · exact hlies
    · exact ih hi

theorem bounds : off ≤ fin ∧
    ∀ i ∈ items, off ≤ i.entry.elem.elemOff ∧ behind c i.entry.elem ≤ fin := by
  induction h with
  | nil _ => exact ⟨le_rfl, nofun⟩
  | cons hlies hoff _ ih =>
    have hb := hlies.bounds
    refine ⟨by omega, fun j hj => ?_⟩
    obtain rfl | hj := mem_cons.1 hj
    · exact ⟨by omega, ih.1⟩
    · have hin := ih.2 j hj
      exact ⟨by omega, by omega⟩

theorem disjoint (hi : i ∈ items) (hj : j ∈ items) (hne : i ≠ j) :
    behind c i.entry.elem ≤ j.entry.elem.elemOff ∨
      behind c j.entry.elem ≤ i.entry.elem.elemOff := by
  induction h with
  | nil _ => cases hi
  | cons _ _ hrest ih =>
    obtain rfl | hi' := mem_cons.1 hi
    · obtain rfl | hj' := mem_cons.1 hj
      · exact absurd rfl hne
      · exact .inl (hrest.bounds.2 j hj').1
    · obtain rfl | hj' := mem_cons.1 hj
      · exact .inr (hrest.bounds.2 i hi').1
      · exact ih hi' hj'

theorem eq_of_entry_eq (hi : i ∈ items) (hj : j ∈ items) (heq : i.entry = j.entry) : i = j := by
  by_contra hne
  have hbi := (h.lies hi).bounds
  have hdisj := h.disjoint hi hj hne
  rw [← heq] at hdisj
  omega

theorem nodup : items.Nodup := by
  induction h with
  | nil _ => exact nodup_nil
  | cons hlies _ hrest ih =>
    have hb := hlies.bounds
    refine nodup_cons.2 ⟨fun hi => ?_, ih⟩
    have hin := (hrest.bounds.2 _ hi).1
    omega

theorem map (g : Item → Item) (hg : ∀ i ∈ items, (g i).entry = i.entry ∧ Lies c f' sector (g i))
    (herased : Erased c f' sector fin) : Content c f' sector off (items.map g) fin := by
  induction h with
  | nil _ => exact .nil herased
  | @cons _ _ i _ _ hoff _ ih =>
    obtain ⟨hentry, hlies⟩ := hg i mem_cons_self
    refine .cons hlies (by rw [hentry, hoff]) ?_
    rw [hentry]
    exact ih (fun j hj => hg j (mem_cons_of_mem _ hj)) herased

theorem frame (hsame : Cells.SameOn (f sector) (f' sector) off (c.sectorSize sector)) :
    Content c f' sector off items fin := by
  have herased : Erased c f' sector fin := fun a h1 h2 =>
    (hsame a (h.bounds.1.trans h1) h2).trans (h.erased a h1 h2)
  have hmap := h.map id (fun i hi => ⟨rfl, (h.lies hi).frame
    (hsame.narrow (h.bounds.2 i hi).1 (h.lies hi).fits)⟩) herased
  rwa [map_id] at hmap

theorem append (hsame : Cells.SameOn (f sector) (f' sector) off fin) (hlies : Lies c f' sector i)
    (hoff : i.entry.elem.elemOff = fin) (herased : Erased c f' sector (behind c i.entry.elem)) :
    Content c f' sector off (items ++ [i]) (behind c i.entry.elem) := by
  induction h with
  | nil _ => exact .cons hlies hoff (.nil herased)
  | cons hj hjoff hrest ih =>
    have hb := hj.bounds
    have hfin := hrest.bounds.1
    refine .cons (hj.frame (hsame.narrow (by omega) hfin)) hjoff (ih ?_ hoff)
    exact hsame.narrow

end

end Content

def inSector (live : List Item) (sector : ℕ) : List Item :=
  live.filter fun i => i.entry.sector = some sector

end ZephyrRtos.Fcb
