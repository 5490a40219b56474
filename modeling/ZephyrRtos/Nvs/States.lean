import ZephyrRtos.Nvs.Writes

namespace ZephyrRtos.Nvs

open List Lib Sys

variable {c : Config} {f g : Flash} {s : Fs} {w v p o d i : ℕ} {bs : List UInt8} {es : List Entry}
  {hist : List (List Entry)} {e : Entry}

theorem base_disjoint (h : v ≠ w) :
    base c v + c.sectorSize ≤ base c w ∨ base c w + c.sectorSize ≤ base c v := by
  unfold base
  obtain hlt | hlt := lt_or_gt_of_ne h
  · have := Nat.mul_le_mul_left c.sectorSize (show v + 1 ≤ w from hlt)
    rw [mul_add] at this
    omega
  · have := Nat.mul_le_mul_left c.sectorSize (show w + 1 ≤ v from hlt)
    rw [mul_add] at this
    omega

theorem sameOn_of_ne (hsame : Cells.SameOff f g (base c w) (base c w + c.sectorSize)) (h : v ≠ w) :
    Cells.SameOn f g (base c v) (base c v + c.sectorSize) :=
  hsame.on (base_disjoint h)

theorem Closed.congr (hc : c.Good) (h : Closed c f w es p o)
    (hsame : Cells.SameOn f g (base c w) (base c w + c.sectorSize)) : Closed c g w es p o where
  slots := h.slots.congr hc hsame.narrow
  stored := h.stored.congr (hsame.narrow le_rfl (by
    have hle := h.slots.data_le
    have htop := h.slots.le_top
    have hfour := hc.four
    unfold top at htop
    omega)) h.slots.fin_le
  ne_nil := h.ne_nil
  close := by
    have hpos := sizeofAte_le hc
    have hfour := hc.four
    exact (Flash.bytes_congr hsame.narrow).trans h.close

theorem Ring.congr (hc : c.Good) (h : Ring c f w hist)
    (hhist : hist.length < c.sectorCount)
    (hsame : Cells.SameOff f g (base c w) (base c w + c.sectorSize)) : Ring c g w hist where
  closed i hi := by
    obtain ⟨p, o, hes⟩ := h.closed i hi
    exact ⟨p, o, hes.congr hc (sameOn_of_ne hsame (back_ne (by omega) (by omega)))⟩
  erased i h1 h2 := (h.erased i h1 h2).congr
    ((sameOn_of_ne hsame (back_ne (by omega) h2)).narrow)

theorem put_sector (hd : d + bs.length ≤ c.sectorSize) (entry : Bool) :
    Cells.SameOff f (f.put (base c w + d) (cells entry bs)) (base c w) (base c w + c.sectorSize) :=
  Cells.sameOff_put.widen (by omega) (by rw [length_cells]; omega)

theorem Front.put_data (hc : c.Good) (h : Front c f w es p d o)
    (hdvd : c.writeBlockSize ∣ bs.length) (hle : d + bs.length ≤ o)
    (hempty : es = [] → d + bs.length + ateSize c ≤ o) :
    Front c (f.put (base c w + d) (cells false bs)) w es p (d + bs.length) o := by
  have htop := h.slots.le_top
  obtain ⟨-, -, -, -, hend⟩ := hc.sizes
  have hsame : Cells.SameOff f (f.put (base c w + d) (cells false bs)) (base c w + d)
      (base c w + d + bs.length) := Cells.sameOff_put.widen le_rfl (by rw [length_cells])
  exact {
    slots := h.slots.congr hc (hsame.on (by omega))
    dvd := Nat.dvd_add h.dvd hdvd
    last hlt := by omega
    empty := hempty
    erased := h.erased.narrow.congr (hsame.on (by omega))
    notClosed := h.notClosed.congr (hsame.on (by omega))
    plain a ha := by
      by_cases hin : d ≤ a ∧ a < d + bs.length
      · obtain ⟨k, rfl⟩ := Nat.exists_eq_add_of_le hin.1
        rw [← add_assoc, Cells.put_add (by rw [length_cells]; omega)]
        simp [cells]
      · rw [hsame _ (by omega)]
        exact h.plain a ha }

theorem Front.put_ate (hc : c.Good) (h : Front c f w es p d o) (hp : p ≤ e.offset) (hfits : e.Fits c o)
    (hlast : o - ateSize c < d → e.data = [] ∧ e.offset = d) :
    Front c (putAte c f w o (e.ate c)) w (e :: es) (e.fin c) d (o - ateSize c) := by
  have htop := h.slots.le_top
  obtain ⟨-, hpos, -, -, hend⟩ := hc.sizes
  have hslot := hfits.slot
  have hlen : (padded c (e.ate c).bytes).length = ateSize c := length_padded hc _
  have hsame : Cells.SameOff f (putAte c f w o (e.ate c)) (base c w + o)
      (base c w + o + ateSize c) := Cells.sameOff_put.widen le_rfl (by rw [length_cells, hlen])
  exact {
    slots := .cons (h.slots.congr hc (hsame.on (by omega))) hp hfits (bytes_put_padded ..)
    dvd := h.dvd
    last hlt := ⟨e, es, rfl, hlast hlt⟩
    empty h := absurd h (cons_ne_nil _ _)
    erased := h.erased.narrow.congr (hsame.on (by omega))
    notClosed := h.notClosed.congr (hsame.on (by omega))
    plain a ha := by
      rw [hsame _ (by omega)]
      exact h.plain a (by omega) }

theorem Stored.put_data (h : Stored c f w es) (hle : ∀ e ∈ es, e.fin c ≤ d) :
    Stored c (f.put (base c w + d) (cells false bs)) w es :=
  h.congr (Cells.sameOff_put.on (.inl le_rfl)) hle

section

variable (hc : c.Good)
include hc

theorem Open.put_data (h : Open c f w es p d o) (hdvd : c.writeBlockSize ∣ bs.length)
    (hle : d + bs.length ≤ o) (hempty : es = [] → d + bs.length + ateSize c ≤ o) :
    Open c (f.put (base c w + d) (cells false bs)) w es p (d + bs.length) o where
  front := h.front.put_data hc hdvd hle hempty
  stored := h.stored.put_data fun e he => (h.front.slots.fin_le e he).trans h.le
  le := h.le.trans (Nat.le_add_right ..)

theorem Open.put_ate (h : Open c f w es p d o) (hdo : d ≤ o) (hp : p ≤ e.offset)
    (hfits : e.Fits c o) (hfin : e.fin c ≤ d)
    (hlast : o - ateSize c < d → e.data = [] ∧ e.offset = d)
    (hdata : f.bytes (base c w + e.offset) (e.len c) = payload c e.data) :
    Open c (putAte c f w o (e.ate c)) w (e :: es) (e.fin c) d (o - ateSize c) where
  front := h.front.put_ate hc hp hfits hlast
  stored := by
    have hsame : Cells.SameOn f (putAte c f w o (e.ate c)) (base c w) (base c w + o) :=
      Cells.sameOff_put.on (.inl le_rfl)
    refine .congr ?_ hsame ?_
    · intro e' he'
      obtain rfl | he' := mem_cons.1 he'
      · exact hdata
      · exact h.stored e' he'
    intro e' he'
    obtain rfl | he' := mem_cons.1 he'
    · omega
    · have hle := h.front.slots.fin_le e' he'
      have hp := h.le
      omega
  le := hfin

theorem Front.congr (h : Front c f w es p d o)
    (hsame : Cells.SameOn f g (base c w) (base c w + c.sectorSize)) : Front c g w es p d o := by
  have htop := h.slots.le_top
  have hfour := hc.four
  unfold top at htop
  exact {
    slots := h.slots.congr hc hsame.narrow
    dvd := h.dvd
    last := h.last
    empty := h.empty
    erased := h.erased.congr hsame.narrow
    notClosed := h.notClosed.congr hsame.narrow
    plain a ha := by
      rw [hsame _ (by omega) (by omega)]
      exact h.plain a ha }

theorem Open.congr (h : Open c f w es p d o)
    (hsame : Cells.SameOn f g (base c w) (base c w + c.sectorSize)) : Open c g w es p d o where
  front := h.front.congr hc hsame
  stored := h.stored.congr (hsame.narrow le_rfl (by
    have hle := h.front.slots.data_le
    have htop := h.front.slots.le_top
    have hfour := hc.four
    unfold top at htop
    omega)) h.front.slots.fin_le
  le := h.le

theorem Open.nil (h : Erased c f w 0 c.sectorSize) : Open c f w [] 0 0 (top c) where
  front := by
    have hfour := hc.four
    exact {
      slots := .nil
      dvd := Nat.dvd_zero _
      last hlt := absurd hlt (Nat.not_lt_zero _)
      empty _ := by unfold top; omega
      erased := h.narrow le_rfl (by unfold top; omega)
      notClosed := h.narrow (Nat.zero_le _) le_rfl
      plain a ha := by
        rw [h a (Nat.zero_le _) (by unfold top at ha; omega)]
        rfl }
  stored _ he := absurd he not_mem_nil
  le := le_rfl

theorem Open.close (hw : w < c.sectorCount) (h : Open c f w es p d o) (hne : es ≠ [])
    (hring : Ring c f w hist) (hhist : hist.length + 1 < c.sectorCount) :
    Ring c (putAte c f w (c.sectorSize - ateSize c) (closeAte c o)) (next c w) (es :: hist) ∧
      Erased c (putAte c f w (c.sectorSize - ateSize c) (closeAte c o)) (next c w) 0
        c.sectorSize := by
  obtain ⟨-, hpos, -, -, hend⟩ := hc.sizes
  have htop := h.front.slots.le_top
  have hdata := h.front.slots.data_le
  have hlen : (padded c (closeAte c o).bytes).length = ateSize c := length_padded hc _
  obtain ⟨g, hg⟩ : ∃ g : Flash, g = putAte c f w (c.sectorSize - ateSize c) (closeAte c o) :=
    ⟨_, rfl⟩
  have hsame : Cells.SameOff f g (base c w) (base c w + c.sectorSize) :=
    hg ▸ put_sector (by omega) true
  have hsame' : Cells.SameOn f g (base c w) (base c w + (c.sectorSize - ateSize c)) :=
    hg ▸ Cells.sameOff_put.on (.inl le_rfl)
  rw [← hg]
  refine ⟨⟨fun i hi => ?_, fun i h1 h2 => ?_⟩, ?_⟩
  · cases i with
    | zero =>
      rw [back_next (by omega), back_zero]
      refine ⟨p, o, ?_, ?_, hne, ?_⟩
      · exact h.front.slots.congr hc hsame'.narrow
      · exact h.stored.congr hsame'.narrow h.front.slots.fin_le
      · exact hg ▸ bytes_put_padded ..
    | succ i =>
      rw [length_cons] at hi
      obtain ⟨p', o', hclosed⟩ := hring.closed i (by omega)
      rw [back_next (by omega)]
      exact ⟨p', o', hclosed.congr hc (sameOn_of_ne hsame (back_ne (by omega) (by omega)))⟩
  · rw [length_cons] at h1
    obtain ⟨j, rfl⟩ : ∃ j, i = j + 1 := Nat.exists_eq_add_of_le' (by omega)
    rw [back_next (by omega)]
    exact (hring.erased j (by omega) (by omega)).congr
      (sameOn_of_ne hsame (back_ne (by omega) (by omega)))
  · rw [← back_last hw]
    exact (hring.erased _ (by omega) (by omega)).congr
      (sameOn_of_ne hsame (back_ne (by omega) (by omega)))

theorem Ring.erase (hw : w < c.sectorCount) (h : Ring c f w (hist ++ [last]))
    (hfull : hist.length + 2 = c.sectorCount) :
    Ring c (f.fill (base c (next c w)) c.sectorSize (erasedCell c)) w hist := by
  have hsame : Cells.SameOff f (f.fill (base c (next c w)) c.sectorSize (erasedCell c))
      (base c (next c w)) (base c (next c w) + c.sectorSize) := Cells.sameOff_fill
  have hne : ∀ i, 0 < i → i < c.sectorCount - 1 → back c w i ≠ next c w := by
    intro i h1 h2
    rw [← back_last hw]
    unfold back
    split <;> split <;> omega
  refine ⟨fun i hi => ?_, fun i h1 h2 => ?_⟩
  · obtain ⟨p, o, hclosed⟩ := h.closed i (by rw [length_append]; omega)
    rw [getElem_append_left hi] at hclosed
    exact ⟨p, o, hclosed.congr hc (sameOn_of_ne hsame (hne _ (by omega) (by omega)))⟩
  · obtain rfl : i = c.sectorCount - 1 := by omega
    rw [back_last hw]
    intro a _ ha
    exact Cells.fill_of_mem (by omega) (by omega)

end

/-! The states of the flash from which a mount finds the data: between two calls, while a sector is
collected and when its entries have been copied. -/

variable {L : List Entry}

structure Idle (c : Config) (f : Flash) (w : ℕ) (es : List Entry) (hist : List (List Entry))
    (p d o : ℕ) : Prop where
  lt : w < c.sectorCount
  opened : Open c f w es p d o
  ring : Ring c f w hist
  space : hist.length + 2 ≤ c.sectorCount
  first : hist = [] → w = 0 ∨ w + 1 = c.sectorCount ∧ es ≠ []

structure Collecting (c : Config) (f : Flash) (w : ℕ) (es : List Entry) (hist : List (List Entry))
    (p d o : ℕ) : Prop where
  lt : w < c.sectorCount
  front : Front c f w es p d o
  ring : Ring c f w hist
  full : hist.length + 1 = c.sectorCount
  unmarked : ∀ e ∈ es, e.id ≠ 0xFFFF

/-- All entries have been copied, and the oldest sector is not yet erased. -/
structure Finished (c : Config) (f : Flash) (w : ℕ) (es : List Entry) (hist : List (List Entry))
    (p d o : ℕ) : Prop where
  lt : w < c.sectorCount
  opened : Open c f w es p d o
  ring : Ring c f w hist
  full : hist.length + 1 = c.sectorCount
  marked : ∃ e ∈ es, e.IsMark
  clean : d = alSize c p

/-- The sectors of entries that a mount finds, the newest first. -/
inductive Recoverable (c : Config) (f : Flash) : List (List Entry) → Prop
  | idle {w : ℕ} {es : List Entry} {hist : List (List Entry)} {p d o : ℕ} :
      Idle c f w es hist p d o → Recoverable c f (es :: hist)
  | collecting {w : ℕ} {es : List Entry} {hist : List (List Entry)} {p d o : ℕ} :
      Collecting c f w es hist p d o → Recoverable c f hist
  | finished {w : ℕ} {es : List Entry} {hist : List (List Entry)} {p d o : ℕ} :
      Finished c f w es hist p d o → Recoverable c f (es :: hist.dropLast)

/-- The entries with the id of the entry of a finished garbage collection have no data. -/
def Marks (L : List Entry) : Prop := ∀ e ∈ L, e.id = 0xFFFF → e.data = []

/-- What is in the sectors. Each of them has an entry that marks the end of a collection, unless
`Q`. -/
structure Content (Q : Prop) (R : List (List Entry)) (val : ℕ → List UInt8) : Prop where
  marks : Marks R.flatten
  value : ∀ id, value id R.flatten = val id
  tidy : ∀ x ∈ R, x ≠ [] → (∃ e ∈ x, e.IsMark) ∨ Q

def Shows (c : Config) (Q : Prop) (f : Flash) (val : ℕ → List UInt8) : Prop :=
  ∃ R, Recoverable c f R ∧ Content Q R val

def FlashOp.Fresh (c : Config) (op : FlashOp) : Prop :=
  match op.act with
  | .write off bs _ => base c op.sector ≤ off ∧ off + bs.length ≤ base c op.sector + c.sectorSize ∧
      ∀ a, off ≤ a → a < off + bs.length → (op.before a).val = c.eraseValue
  | .flatten _ _ => True

def Marked (c : Config) (f : Flash) (w : ℕ) : Prop :=
  ∃ o ≤ top c, ∃ off, ateSize c ∣ o ∧
    f.bytes (base c w + o) sizeofAte = (Entry.ate c ⟨0xFFFF, off, []⟩).bytes

/-- A sector that is not empty is erased when its entries have been copied, or to start again. -/
def FlashOp.Reserved (c : Config) (op : FlashOp) : Prop :=
  match op.act with
  | .write _ _ _ => True
  | .flatten off len => off = base c op.sector ∨ (∀ a, off ≤ a → a < off + len →
      op.before a = erasedCell c) ∨ Marked c op.before op.sector

/-- What is kept by each operation on the flash, where `V` are the data that may be found. -/
structure OpOk (c : Config) (V : (ℕ → List UInt8) → Prop) (Q : Prop) (op : FlashOp) : Prop where
  fresh : op.Fresh c
  before : ∃ val, V val ∧ Shows c Q op.before val
  after : ∃ val, V val ∧ Shows c Q op.after val
  reserved : op.Reserved c ∨ Q

variable {V : (ℕ → List UInt8) → Prop} {Q : Prop}

section

variable (hc : c.Good)
include hc

theorem Slots.marked (h : Slots c f w es p o) (he : e ∈ es) (hmark : e.IsMark) : Marked c f w := by
  induction h with
  | nil => cases he
  | @cons e' es p o hes _ _ hat ih =>
    obtain rfl | he := mem_cons.1 he
    · obtain ⟨id, off, data⟩ := e
      obtain ⟨rfl, rfl⟩ := hmark
      exact ⟨o, hes.le_top, off, hes.dvd hc, hat⟩
    · exact ih he

theorem Front.steps (h : Front c f w es p d o) (hle : d + bs.length ≤ o)
    (hshow : ∀ xs, c.writeBlockSize ∣ xs.length → xs.length ≤ bs.length → ∃ val, V val ∧ Shows c Q (f.put (base c w + d) (cells false xs)) val) :
    Steps c f w (base c w + d) false bs (OpOk c V Q) := by
  intro xs ys zs heq hxs hys _
  have htop := h.slots.le_top
  obtain ⟨-, -, -, -, hend⟩ := hc.sizes
  have hlen : bs.length = xs.length + ys.length + zs.length := by
    rw [heq, length_append, length_append]
  refine ⟨⟨Nat.le_add_right_of_le (Nat.le_add_right ..), ?_, fun a h1 h2 => ?_⟩,
    hshow xs hxs (by omega), hshow (xs ++ ys) ?_ ?_, .inl trivial⟩
  · dsimp only
    omega
  · dsimp only at h1 h2 ⊢
    obtain ⟨k, rfl⟩ := Nat.exists_eq_add_of_le (show base c w ≤ a by omega)
    rw [Cells.put_of_lt_or_le (by rw [length_cells]; omega), h.erased k (by omega) (by omega)]
    rfl
  · rw [length_append]
    exact Nat.dvd_add hxs hys
  · rw [length_append]
    omega

theorem Front.ate_ok (h : Front c f w es p d o) (hdo : d ≤ o) (ate : Ate)
    (hbefore : Shows c Q f val) (hval : V val)
    (hafter : Shows c Q (putAte c f w o ate) val') (hval' : V val') :
    OpOk c V Q (ateOp c f w o ate) := by
  have htop := h.slots.le_top
  obtain ⟨-, -, -, -, hend⟩ := hc.sizes
  have hlen : (padded c ate.bytes).length = ateSize c := length_padded hc _
  refine ⟨⟨Nat.le_add_right .., ?_, fun a h1 h2 => ?_⟩, ⟨val, hval, hbefore⟩, ⟨val', hval', hafter⟩,
    .inl trivial⟩
  · dsimp only
    omega
  · dsimp only at h1 h2 ⊢
    obtain ⟨k, rfl⟩ := Nat.exists_eq_add_of_le (show base c w ≤ a by omega)
    rw [h.erased k (by omega) (by omega)]
    rfl

theorem Idle.put_data (h : Idle c f w es hist p d o) (hdvd : c.writeBlockSize ∣ bs.length)
    (hle : d + bs.length ≤ o) (hempty : es = [] → d + bs.length + ateSize c ≤ o) :
    Idle c (f.put (base c w + d) (cells false bs)) w es hist p (d + bs.length) o where
  lt := h.lt
  opened := h.opened.put_data hc hdvd hle hempty
  ring := by
    have hspace := h.space
    have htop := h.opened.front.slots.le_top
    unfold top at htop
    exact h.ring.congr hc (by omega) (put_sector (by omega) false)
  space := h.space
  first := h.first

theorem Idle.put_ate (h : Idle c f w es hist p d o) (hdo : d ≤ o) (hp : p ≤ e.offset)
    (hfits : e.Fits c o) (hfin : e.fin c ≤ d)
    (hlast : o - ateSize c < d → e.data = [] ∧ e.offset = d)
    (hdata : f.bytes (base c w + e.offset) (e.len c) = payload c e.data) :
    Idle c (putAte c f w o (e.ate c)) w (e :: es) hist (e.fin c) d (o - ateSize c) where
  lt := h.lt
  opened := h.opened.put_ate hc hdo hp hfits hfin hlast hdata
  ring := by
    have hspace := h.space
    have htop := h.opened.front.slots.le_top
    have hfour := hc.four
    have hlen : (padded c (e.ate c).bytes).length = ateSize c := length_padded hc _
    unfold top at htop
    exact h.ring.congr hc (by omega) (put_sector (by omega) true)
  space := h.space
  first hnil := (h.first hnil).imp_right fun h => ⟨h.1, cons_ne_nil _ _⟩

theorem Collecting.put_data (h : Collecting c f w es hist p d o)
    (hdvd : c.writeBlockSize ∣ bs.length) (hle : d + bs.length ≤ o)
    (hempty : es = [] → d + bs.length + ateSize c ≤ o) :
    Collecting c (f.put (base c w + d) (cells false bs)) w es hist p (d + bs.length) o where
  lt := h.lt
  front := h.front.put_data hc hdvd hle hempty
  ring := by
    have hfull := h.full
    have htop := h.front.slots.le_top
    unfold top at htop
    exact h.ring.congr hc (by omega) (put_sector (by omega) false)
  full := h.full
  unmarked := h.unmarked

theorem Collecting.put_ate (h : Collecting c f w es hist p d o) (hp : p ≤ e.offset)
    (hfits : e.Fits c o) (hlast : o - ateSize c < d → e.data = [] ∧ e.offset = d)
    (hid : e.id ≠ 0xFFFF) :
    Collecting c (putAte c f w o (e.ate c)) w (e :: es) hist (e.fin c) d (o - ateSize c) where
  lt := h.lt
  front := h.front.put_ate hc hp hfits hlast
  ring := by
    have hfull := h.full
    have htop := h.front.slots.le_top
    have hfour := hc.four
    have hlen : (padded c (e.ate c).bytes).length = ateSize c := length_padded hc _
    unfold top at htop
    exact h.ring.congr hc (by omega) (put_sector (by omega) true)
  full := h.full
  unmarked e' he' := by
    obtain rfl | he' := mem_cons.1 he'
    · exact hid
    · exact h.unmarked e' he'

end

def mark (d : ℕ) : Entry := ⟨0xFFFF, d, []⟩

theorem mark_len : (mark d).len c = 0 := Entry.len_eq_zero.2 rfl

theorem mark_fin : (mark d).fin c = d := by rw [Entry.fin, mark_len]; rfl

theorem mark_fits (hc : c.Good) (hdvd : c.writeBlockSize ∣ d) (hle : d + ateSize c ≤ o) :
    (mark d).Fits c o where
  id_lt := (by decide : 0xFFFF < 2 ^ 16)
  slot := by omega
  le := by rw [mark_fin]; omega
  room _ := by rw [mark_fin, alSize_of_dvd hc hdvd]; exact hle

theorem Marks.value_mark (h : Marks L) (id : ℕ) : value id (mark d :: L) = value id L := by
  rw [value, LogStore.lookup_cons]
  split
  next heq =>
    subst heq
    rw [value, LogStore.lookup]
    cases hfind : L.find? fun x => decide (x.id = (mark d).id) with
    | none => rfl
    | some x =>
      have hx := find?_some hfind
      exact (h x (mem_of_find?_eq_some hfind) (of_decide_eq_true hx)).symm
  next => rfl

theorem Marks.cons (h : Marks L) (he : e.id = 0xFFFF → e.data = []) : Marks (e :: L) := by
  intro x hx
  obtain rfl | hx := mem_cons.1 hx
  · exact he
  · exact h x hx

theorem Content.mark (h : Content Q (es :: hist) val) :
    Content Q ((mark d :: es) :: hist) val where
  marks := h.marks.cons fun _ => rfl
  value id := (h.marks.value_mark id).trans (h.value id)
  tidy x hx hne := by
    obtain rfl | hx := mem_cons.1 hx
    · exact .inl ⟨Nvs.mark d, mem_cons_self, rfl, rfl⟩
    · exact h.tidy x (mem_cons_of_mem _ hx) hne

theorem Content.nil (h : Content Q hist val) : Content Q ([] :: hist) val where
  marks := h.marks
  value := h.value
  tidy x hx hne := by
    obtain rfl | hx := mem_cons.1 hx
    · exact absurd rfl hne
    · exact h.tidy x hx hne

theorem Idle.shows (h : Idle c f w es hist p d o) (hR : Content Q (es :: hist) val) :
    Shows c Q f val :=
  ⟨_, .idle h, hR⟩

theorem Collecting.shows (h : Collecting c f w es hist p d o) (hR : Content Q hist val) :
    Shows c Q f val :=
  ⟨_, .collecting h, hR⟩

theorem Finished.shows (h : Finished c f w es (hist ++ [last]) p d o)
    (hR : Content Q (es :: hist) val) :
    Shows c Q f val := by
  have := Recoverable.finished h
  rw [dropLast_concat] at this
  exact ⟨_, this, hR⟩

structure Mounted (c : Config) (s : Fs) (w : ℕ) (es : List Entry) (hist : List (List Entry))
    (p d o : ℕ) : Prop where
  idle : Idle c s.flash w es hist p d o
  ateWra : s.ateWra = addrOf w o
  dataWra : s.dataWra = addrOf w d
  ne_nil : es ≠ []

variable {fs : Fs} {a b : ℕ} {last : List Entry} {T A B : List (ℕ × Entry)} {x y : ℕ × Entry}

theorem Trail.head (h : Trail c fs a (x :: B)) : a = x.1 ∧ ateValid a (x.2.ate c) = true ∧
    ∃ b, prevAte c fs a = .ok (x.2.ate c, b) ∧ Trail c fs b B := by
  cases h with
  | cons hprev hvalid _ htail => exact ⟨rfl, hvalid, _, hprev, htail⟩

theorem Trail.suffix (h : Trail c fs a (A ++ x :: B)) : Trail c fs x.1 (x :: B) := by
  induction A generalizing a with
  | nil =>
    cases h with
    | cons hprev hvalid hne htail => exact .cons hprev hvalid hne htail
  | cons z A ih =>
    cases h with
    | cons _ _ _ htail => exact ih htail

theorem Trail.length_eq (h : Trail c fs a A) (h' : Trail c fs a B) : A.length = B.length := by
  induction h generalizing B with
  | nil =>
    cases h' with
    | nil => rfl
    | cons _ _ hne _ => exact absurd rfl hne
  | cons hprev _ hne _ ih =>
    cases h' with
    | nil => exact absurd rfl hne
    | cons hprev' _ _ htail' =>
      rw [hprev] at hprev'
      injection hprev' with heq
      obtain ⟨-, rfl⟩ := Prod.mk.inj heq
      rw [length_cons, length_cons, ih htail']

theorem Trail.addr_ne (h : Trail c fs a (A ++ y :: B)) (hx : x ∈ A) : x.1 ≠ y.1 := by
  intro heq
  obtain ⟨A1, A2, rfl⟩ := append_of_mem hx
  have hy := h.suffix
  rw [append_assoc, cons_append] at h
  have hlen := (heq ▸ h.suffix).length_eq hy
  simp only [length_cons, length_append] at hlen
  omega

theorem Slots.length_lt (hc : c.Good) (h : Slots c f w es p o) : es.length < c.sectorSize := by
  have hoff := h.offset
  have hfour := hc.four
  have hpos := sizeofAte_le hc
  have hmul := Nat.mul_le_mul_left es.length (show 1 ≤ ateSize c by unfold sizeofAte at hpos; omega)
  unfold top at hoff
  unfold sizeofAte at hpos
  omega

theorem length_slotsOf : (slotsOf c w es).length = es.length := by
  rw [← length_map Prod.snd, map_snd_slotsOf]

theorem length_ringSlots_le (hist : List (List Entry)) (hc : c.Good)
    (hclosed : ∀ j (h : j < hist.length), ∃ p o, Closed c f (back c w (i + j)) hist[j] p o) :
    (ringSlots c w i hist).length ≤ hist.length * c.sectorSize := by
  induction hist generalizing i with
  | nil => exact Nat.zero_le _
  | cons es hist ih =>
    obtain ⟨p, o, hes⟩ := hclosed 0 (by simp)
    have hlt := hes.slots.length_lt hc
    have htail := ih fun j hj => by
      have := hclosed (j + 1) (by simpa using hj)
      rwa [getElem_cons_succ, show i + (j + 1) = i + 1 + j by omega] at this
    rw [getElem_cons_zero] at hlt
    rw [ringSlots, length_append, length_slotsOf, length_cons, add_mul]
    omega

theorem Front.listed (hc : c.Good) (hw : w < c.sectorCount) (h : Front c fs.flash w es p d o)
    (hring : Ring c fs.flash w hist) (hhist : hist.length < c.sectorCount)
    (hate : fs.ateWra = addrOf w o) (hstray : stray c fs = false) (hne : es ≠ [] ∨ hist ≠ []) :
    Listed c fs (slotsOf c w es ++ ringSlots c w 1 hist) where
  start := by
    obtain ⟨b, hprev, htrail⟩ := h.trail hc hw hring hhist hate
    refine ⟨_, b, hprev, ?_, htrail⟩
    have hfour := hc.four
    have htop := h.slots.le_top
    have hpos := sizeofAte_le hc
    unfold top at htop
    rwa [stray, hate, ateRd_addrOf hc hw fs.flash (by omega), ← hate] at hstray
  ne_nil := by
    obtain hne | hne := hne
    · cases es with
      | nil => exact absurd rfl hne
      | cons e es => exact fun h => cons_ne_nil _ _ (append_eq_nil_iff.1 h).1
    intro hnil
    have hnil' := (append_eq_nil_iff.1 hnil).2
    cases hist with
    | nil => exact absurd rfl hne
    | cons es' hist =>
      obtain ⟨p', o', hes⟩ := hring.closed 0 (by simp)
      have hnil'' := congrArg (map Prod.snd) (append_eq_nil_iff.1 hnil').1
      rw [map_snd_slotsOf] at hnil''
      exact hes.ne_nil hnil''
  length_lt := by
    have hlt := h.slots.length_lt hc
    have hle := length_ringSlots_le hist hc
      (fun j hj => by simpa [add_comm] using hring.closed j hj)
    have hmul := Nat.mul_le_mul_right c.sectorSize (show hist.length + 1 ≤ c.sectorCount from hhist)
    rw [add_mul] at hmul
    rw [length_append, length_slotsOf, walkBound]
    omega

theorem Front.not_stray (hc : c.Good) (hw : w < c.sectorCount) (h : Front c fs.flash w es p d o)
    (hate : fs.ateWra = addrOf w o) (hdo : d ≤ o) : stray c fs = false := by
  have hfour := hc.four
  have htop := h.slots.le_top
  have hpos := sizeofAte_le hc
  unfold top at htop
  rw [stray, hate, ateRd_addrOf hc hw fs.flash (by omega), h.erased.bytes hdo (by omega)]
  exact ateValid_erased hc _

theorem ringSlots_append : ringSlots c w i (hist ++ [last]) =
    ringSlots c w i hist ++ slotsOf c (back c w (i + hist.length)) last := by
  induction hist generalizing i with
  | nil => simp [ringSlots]
  | cons es hist ih =>
    rw [cons_append, ringSlots, ih, ringSlots, append_assoc, length_cons,
      show i + 1 + hist.length = i + (hist.length + 1) by omega]

theorem slotsOf_append (done todo : List Entry) : ∃ A, A.map Prod.snd = done ∧
    slotsOf c w (done ++ todo) = A ++ slotsOf c w todo := by
  induction done with
  | nil => exact ⟨[], rfl, rfl⟩
  | cons e done ih =>
    obtain ⟨A, hA, heq⟩ := ih
    refine ⟨(addrOf w (top c - (done ++ todo).length * ateSize c), e) :: A,
      by rw [map_cons, hA], ?_⟩
    rw [cons_append, slotsOf, heq, cons_append]

theorem Listed.newest (h : Listed c fs (A ++ y :: B)) :
    ∃ r : ℕ × Ate × ℕ, walk c fs (matching y.2.id) (walkBound c) fs.ateWra = .ok r ∧
      (r.1 = y.1 ↔ ∀ x ∈ A, x.2.id ≠ y.2.id) := by
  obtain ⟨pre, x, post, b, hT, hpre, hx, hwalk, -⟩ := h.walk_id y.2.id
  obtain ⟨-, _, -, -, htrail⟩ := h.start
  refine ⟨_, hwalk, ?_⟩
  have hxid : x.2.id = y.2.id := by
    obtain hx | rfl := hx
    · exact hx
    · by_contra hne
      have hy : y ∈ pre ++ [x] := by rw [← hT]; simp
      obtain hy | hy := mem_append.1 hy
      · exact hpre y hy rfl
      · exact hne (by rw [mem_singleton.1 hy])
  obtain ⟨C, hC, hC'⟩ | ⟨C, hC, hC'⟩ := append_eq_append_iff.1 hT
  · cases C with
    | nil =>
      obtain ⟨rfl, -⟩ := cons.inj hC'
      rw [append_nil] at hC
      exact ⟨fun _ z hz => hpre z (hC ▸ hz), fun _ => rfl⟩
    | cons z C =>
      obtain ⟨rfl, -⟩ := cons.inj hC'
      exact absurd rfl (hpre y (by rw [hC]; simp))
  · cases C with
    | nil =>
      obtain ⟨rfl, -⟩ := cons.inj hC'
      rw [append_nil] at hC
      exact ⟨fun _ z hz => hpre z (hC ▸ hz), fun _ => rfl⟩
    | cons z C =>
      obtain ⟨rfl, -⟩ := cons.inj hC'
      have hmem : x ∈ A := by rw [hC]; simp
      exact ⟨fun heq => absurd heq (htrail.addr_ne hmem), fun hall => absurd hxid (hall x hmem)⟩

end ZephyrRtos.Nvs
