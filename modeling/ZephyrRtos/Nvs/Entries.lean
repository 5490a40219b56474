import ZephyrRtos.Nvs.Geometry

namespace ZephyrRtos.Nvs

open List Lib Sys

variable {c : Config} {f g : Flash} {w p o d : ℕ}

def payload (c : Config) (data : List UInt8) : List UInt8 :=
  match c.dataCrc with
  | none => data
  | some crc32 => if data = [] then [] else data ++ leBytes 4 (crc32 data).toNat

theorem payload_nil : payload c [] = [] := by
  unfold payload
  split <;> rfl

theorem length_payload (h : data ≠ []) : (payload c data).length = data.length + dataCrcSize c := by
  unfold payload dataCrcSize
  cases hcrc : c.dataCrc with
  | none => rfl
  | some crc32 =>
    dsimp only [Option.isSome_some]
    rw [if_neg h, length_append, length_leBytes, if_pos rfl]

theorem payload_eq_nil : payload c data = [] ↔ data = [] := by
  refine ⟨fun h => ?_, fun h => by rw [h, payload_nil]⟩
  by_contra hne
  have hlen := length_payload (c := c) hne
  rw [h, length_nil] at hlen
  exact hne (length_eq_zero_iff.1 (by omega))

theorem take_payload (data : List UInt8) : (payload c data).take data.length = data := by
  unfold payload
  cases c.dataCrc with
  | none => exact take_length
  | some crc32 =>
    dsimp only
    split
    next h => rw [h]; rfl
    next => exact take_left

/-- An entry: its id, and where its data is. Without data it deletes what there is with the id. -/
structure Entry where
  id : ℕ
  offset : ℕ
  data : List UInt8
  deriving DecidableEq

namespace Entry

def len (c : Config) (e : Entry) : ℕ := (payload c e.data).length

def fin (c : Config) (e : Entry) : ℕ := e.offset + e.len c

def ate (c : Config) (e : Entry) : Ate := ateCrc8Update ⟨e.id, e.offset, e.len c, 0xff, 0⟩

def IsMark (e : Entry) : Prop := e.id = 0xFFFF ∧ e.data = []

/-- The data is before the entry at an offset. With data, or for the entry of a finished garbage
collection, there is also room for an entry in between. -/
structure Fits (c : Config) (e : Entry) (o : ℕ) : Prop where
  id_lt : e.id < 2 ^ 16
  slot : ateSize c ≤ o
  le : e.fin c ≤ o
  room : e.data ≠ [] ∨ e.IsMark → alSize c (e.fin c) + ateSize c ≤ o

theorem len_eq_zero {e : Entry} : e.len c = 0 ↔ e.data = [] := by
  rw [len, length_eq_zero_iff, payload_eq_nil]

end Entry

def top (c : Config) : ℕ := c.sectorSize - 2 * ateSize c

theorem Config.Good.sizes (hc : c.Good) : sizeofAte = 8 ∧ 8 ≤ ateSize c ∧
    4 * ateSize c ≤ c.sectorSize ∧ c.sectorSize ≤ 2 ^ 16 ∧ top c + 2 * ateSize c = c.sectorSize := by
  have hfour := hc.four
  refine ⟨rfl, sizeofAte_le hc, hfour, hc.size_le, ?_⟩
  unfold top
  omega

/-- The entries of a sector, the newest first, the end of their data and the offset where the next
entry goes. -/
inductive Slots (c : Config) (f : Flash) (w : ℕ) : List Entry → ℕ → ℕ → Prop
  | nil : Slots c f w [] 0 (top c)
  | cons {e : Entry} {es : List Entry} {p o : ℕ} : Slots c f w es p o → p ≤ e.offset →
      e.Fits c o → f.bytes (base c w + o) sizeofAte = (e.ate c).bytes →
      Slots c f w (e :: es) (e.fin c) (o - ateSize c)

def Stored (c : Config) (f : Flash) (w : ℕ) (es : List Entry) : Prop :=
  ∀ e ∈ es, f.bytes (base c w + e.offset) (e.len c) = payload c e.data

def closeAte (c : Config) (o : ℕ) : Ate := ateCrc8Update ⟨0xFFFF, o + ateSize c, 0, 0xff, 0⟩

structure Closed (c : Config) (f : Flash) (w : ℕ) (es : List Entry) (p o : ℕ) : Prop where
  slots : Slots c f w es p o
  stored : Stored c f w es
  ne_nil : es ≠ []
  close : f.bytes (base c w + (c.sectorSize - ateSize c)) sizeofAte = (closeAte c o).bytes

def erasedCell (c : Config) : Cell := ⟨c.eraseValue, false⟩

def Erased (c : Config) (f : Flash) (w lo hi : ℕ) : Prop :=
  ∀ a, lo ≤ a → a < hi → f (base c w + a) = erasedCell c

/-- The sector has entries up to offset `o`, and the bytes between those and offset `d` are erased.
Only an entry without data goes to the last place that is left by the data. -/
structure Front (c : Config) (f : Flash) (w : ℕ) (es : List Entry) (p d o : ℕ) : Prop where
  slots : Slots c f w es p o
  dvd : c.writeBlockSize ∣ d
  last : o < d → ∃ e tl, es = e :: tl ∧ e.data = [] ∧ e.offset = d
  empty : es = [] → d + ateSize c ≤ o
  erased : Erased c f w d (o + ateSize c)
  notClosed : Erased c f w (c.sectorSize - ateSize c) c.sectorSize
  plain : ∀ a < o + ateSize c, (f (base c w + a)).entry = false

structure Open (c : Config) (f : Flash) (w : ℕ) (es : List Entry) (p d o : ℕ) : Prop where
  front : Front c f w es p d o
  stored : Stored c f w es
  le : p ≤ d

theorem Ate.ofBytes_bytes (a : Ate) (hid : a.id < 2 ^ 16) (hoffset : a.offset < 2 ^ 16)
    (hlen : a.len < 2 ^ 16) : Ate.ofBytes a.bytes = a := by
  have hle : ∀ x < 2 ^ 16, le16 (.ofNat x) (.ofNat (x / 256)) = x := by
    intro x hx
    rw [le16, UInt8.toNat_ofNat', UInt8.toNat_ofNat']
    omega
  have h : Ate.ofBytes a.bytes = ⟨le16 (.ofNat a.id) (.ofNat (a.id / 256)),
    le16 (.ofNat a.offset) (.ofNat (a.offset / 256)),
    le16 (.ofNat a.len) (.ofNat (a.len / 256)), a.part, a.crc8⟩ := rfl
  rw [h, hle _ hid, hle _ hoffset, hle _ hlen]

theorem Ate.length_bytes (a : Ate) : a.bytes.length = sizeofAte := rfl

theorem Ate.bytes_ofBytes (h : bs.length = sizeofAte) : (Ate.ofBytes bs).bytes = bs := by
  have hlo : ∀ x y : UInt8, .ofNat (le16 x y) = x := by
    intro x y
    have hx := x.toNat_lt
    refine UInt8.toNat_inj.1 ?_
    rw [UInt8.toNat_ofNat', le16]
    omega
  have hhi : ∀ x y : UInt8, .ofNat (le16 x y / 256) = y := by
    intro x y
    have hx := x.toNat_lt
    have hy := y.toNat_lt
    refine UInt8.toNat_inj.1 ?_
    rw [UInt8.toNat_ofNat', le16]
    omega
  match bs, h with
  | [b0, b1, b2, b3, b4, b5, b6, b7], _ =>
    show [_, _, _, _, _, _, _, _] = _
    simp [Ate.ofBytes, getD_cons_succ, hlo, hhi]

theorem Flash.length_bytes (f : Flash) (a n : ℕ) : (f.bytes a n).length = n := by
  rw [Flash.bytes, length_map, Cells.length_slice]

theorem Flash.bytes_congr (h : Cells.SameOn f g a (a + n)) : g.bytes a n = f.bytes a n := by
  rw [Flash.bytes, Flash.bytes, Cells.slice_congr h]

theorem Flash.bytes_add (f : Flash) (a n k : ℕ) :
    f.bytes a (n + k) = f.bytes a n ++ f.bytes (a + n) k := by
  rw [Flash.bytes, Flash.bytes, Flash.bytes, Cells.slice_add, map_append]

theorem Erased.narrow (h : Erased c f w lo hi) (h1 : lo ≤ lo' := by omega)
    (h2 : hi' ≤ hi := by omega) : Erased c f w lo' hi' := fun a h3 h4 => h a (by omega) (by omega)

theorem Erased.bytes (h : Erased c f w lo hi) (h1 : lo ≤ a) (h2 : a + n ≤ hi) :
    f.bytes (base c w + a) n = replicate n c.eraseValue := by
  refine ext_getElem (by rw [Flash.length_bytes, length_replicate]) fun i hi _ => ?_
  rw [Flash.length_bytes] at hi
  rw [getElem_replicate]
  simp only [Flash.bytes, getElem_map, Cells.getElem_slice]
  rw [add_assoc, h (a + i) (by omega) (by omega)]
  rfl

theorem Erased.congr (h : Erased c f w lo hi)
    (hsame : Cells.SameOn f g (base c w + lo) (base c w + hi)) : Erased c g w lo hi :=
  fun a h1 h2 => (hsame _ (by omega) (by omega)).trans (h a h1 h2)

theorem erased_not_valid : ∀ n < 256, UInt8.ofNat n ≠ 0x52 →
    ateCrc8Check (Ate.ofBytes (replicate sizeofAte (UInt8.ofNat n))) = false ∨
      2 ^ 16 ≤ (Ate.ofBytes (replicate sizeofAte (UInt8.ofNat n))).offset +
        (Ate.ofBytes (replicate sizeofAte (UInt8.ofNat n))).len := by
  decide +kernel

theorem ateValid_erased (hc : c.Good) (addr : ℕ) :
    ateValid addr (Ate.ofBytes (replicate sizeofAte c.eraseValue)) = false := by
  have h := erased_not_valid c.eraseValue.toNat c.eraseValue.toNat_lt
  rw [UInt8.ofNat_toNat] at h
  rw [ateValid]
  obtain hcrc | hlen := h hc.erase
  · rw [hcrc, Bool.false_and]
  · rw [decide_eq_false, Bool.and_false]
    unfold addrOffs
    omega

theorem ateCmpConst_erased :
    ateCmpConst (Ate.ofBytes (replicate sizeofAte c.eraseValue)) c.eraseValue = true := by
  rw [ateCmpConst, Ate.bytes_ofBytes length_replicate, all_eq_true]
  intro x hx
  exact decide_eq_true (eq_of_mem_replicate hx)

theorem Stored.congr (h : Stored c f w es) (hsame : Cells.SameOn f g (base c w) (base c w + p))
    (hle : ∀ e ∈ es, e.fin c ≤ p) :
    Stored c g w es := by
  intro e he
  have hfin := hle e he
  unfold Entry.fin at hfin
  exact (Flash.bytes_congr hsame.narrow).trans (h e he)

def total (c : Config) (es : List Entry) : ℕ := (es.map (Entry.len c)).sum

namespace Slots

variable {es T : List Entry}

theorem offset (h : Slots c f w es p o) : o + es.length * ateSize c = top c := by
  induction h with
  | nil => rw [length_nil, zero_mul, add_zero]
  | cons _ _ hfits _ ih =>
    have hslot := hfits.slot
    rw [length_cons, add_mul]
    omega

theorem le_top (h : Slots c f w es p o) : o ≤ top c := by
  have hb := h.offset
  omega

theorem dvd (hc : c.Good) (h : Slots c f w es p o) : ateSize c ∣ o := by
  have htop : ateSize c ∣ top c := Nat.dvd_sub hc.dvd (dvd_mul_left ..)
  rw [← h.offset] at htop
  exact (Nat.dvd_add_left (dvd_mul_left ..)).1 htop

theorem fin_le (h : Slots c f w es p o) : ∀ e ∈ es, e.fin c ≤ p := by
  induction h with
  | nil => exact fun _ h => absurd h (not_mem_nil)
  | @cons e es p o _ hp _ _ ih =>
    intro e' he'
    obtain rfl | he' := mem_cons.1 he'
    · exact le_rfl
    · exact (ih e' he').trans (hp.trans (Nat.le_add_right ..))

theorem data_le (h : Slots c f w es p o) : p ≤ o + ateSize c := by
  cases h with
  | nil => exact Nat.zero_le _
  | cons _ _ hfits _ =>
    have hle := hfits.le
    omega

theorem total_le (h : Slots c f w es p o) (hsub : T.Sublist es) : total c T ≤ p := by
  induction h generalizing T with
  | nil =>
    obtain rfl := sublist_nil.1 hsub
    exact le_rfl
  | @cons e es p o _ hp _ _ ih =>
    unfold Entry.fin
    cases hsub with
    | cons _ hsub =>
      have := ih hsub
      omega
    | @cons_cons T _ _ hsub =>
      have := ih hsub
      show e.len c + total c T ≤ _
      omega

theorem room (hc : c.Good) (h : Slots c f w es p o) (hsub : T.Sublist es) (hne : T ≠ [])
    (hT : ∀ e ∈ T, e.data ≠ [] ∨ e.IsMark) :
    alSize c (total c T) + (T.length + 2) * ateSize c ≤ c.sectorSize := by
  induction h generalizing T with
  | nil => exact absurd (sublist_nil.1 hsub) hne
  | @cons e es p o hes hp hfits _ ih =>
    cases hsub with
    | cons _ hsub => exact ih hsub hne hT
    | @cons_cons T _ _ hsub =>
      have hroom := hfits.room (hT e mem_cons_self)
      have htotal : total c (e :: T) ≤ e.fin c := by
        have := hes.total_le hsub
        show e.len c + total c T ≤ e.offset + e.len c
        omega
      have hal := alSize_mono hc htotal
      have hlen := Nat.mul_le_mul_right (ateSize c) hsub.length_le
      have hoff := hes.offset
      have hexp : ((e :: T).length + 2) * ateSize c = T.length * ateSize c + 3 * ateSize c := by
        rw [length_cons, ← add_mul]
      unfold top at hoff
      omega

theorem congr (hc : c.Good) (h : Slots c f w es p o)
    (hsame : Cells.SameOn f g (base c w + o + ateSize c)
      (base c w + (c.sectorSize - ateSize c))) : Slots c g w es p o := by
  induction h with
  | nil => exact .nil
  | @cons e es p o hes hp hfits hat ih =>
    have hslot := hfits.slot
    have hsize := sizeofAte_le hc
    have htop := hes.le_top
    unfold top at htop
    refine .cons (ih hsame.narrow) hp hfits ?_
    exact (Flash.bytes_congr hsame.narrow).trans hat

end Slots

theorem Entry.Fits.lt {e : Entry} (hc : c.Good) (hfits : e.Fits c o) (ho : o ≤ top c) :
    e.offset < 2 ^ 16 ∧ e.len c < 2 ^ 16 := by
  have hle := hfits.le
  have hsize := hc.size_le
  have hpos := sizeofAte_le hc
  unfold Entry.fin at hle
  unfold top at ho
  unfold sizeofAte at hpos
  omega

theorem ateValid_ate {e : Entry} (hc : c.Good) (hfits : e.Fits c o) (ho : o ≤ top c) :
    ateValid (addrOf w o) (e.ate c) = true := by
  have hle := hfits.le
  have hsize := hc.size_le
  have hpos := sizeofAte_le hc
  unfold sizeofAte at hpos
  unfold top at ho
  rw [ateValid, addrOffs_addrOf (by omega), Bool.and_eq_true, decide_eq_true_iff]
  exact ⟨decide_eq_true rfl, hle⟩

section

variable (hc : c.Good) (hw : w < c.sectorCount)
include hc hw

theorem ateRd_addrOf (f : Flash) (ho : o + sizeofAte ≤ c.sectorSize) :
    flashAteRd c f (addrOf w o) = .ok (Ate.ofBytes (f.bytes (base c w + o) sizeofAte)) := by
  have hsize := hc.size_le
  have hpos : 0 < sizeofAte := by decide
  rw [flashAteRd, rd_addrOf hc f hw ho (by omega)]
  rfl

theorem ateRd_ate {e : Entry} (h : f.bytes (base c w + o) sizeofAte = (e.ate c).bytes)
    (hfits : e.Fits c o) (ho : o ≤ top c) : flashAteRd c f (addrOf w o) = .ok (e.ate c) := by
  have hfour := hc.four
  have hpos := sizeofAte_le hc
  obtain ⟨hoff, hlen⟩ := hfits.lt hc ho
  unfold top at ho
  rw [ateRd_addrOf hc hw f (by omega), h, Ate.ofBytes_bytes _ hfits.id_lt hoff hlen]

end

end ZephyrRtos.Nvs
