import ZephyrRtos.Nvs.Entries

namespace ZephyrRtos.Nvs

open List Lib Sys

variable {c : Config} {f g : Flash} {fs : Fs} {w p o d a b i n : ℕ} {es : List Entry}
  {hist : List (List Entry)}

theorem ok_bind (x : α) (k : α → Except ε β) : (Except.ok x >>= k) = k x := rfl

theorem back_zero : back c w 0 = w := by
  unfold back
  split <;> omega

theorem back_ne (hpos : 0 < i) (hi : i < c.sectorCount) : back c w i ≠ w := by
  unfold back
  split <;> omega

theorem back_next (hi : i + 1 ≤ c.sectorCount) : back c (next c w) (i + 1) = back c w i := by
  unfold back next
  split <;> split <;> split <;> omega

section

variable (hw : w < c.sectorCount)
include hw

theorem next_lt : next c w < c.sectorCount := by
  unfold next
  split <;> omega

theorem back_lt : back c w i < c.sectorCount := by
  unfold back
  split <;> omega

theorem back_self : back c w c.sectorCount = w := by
  unfold back
  split <;> omega

theorem back_back (hi : i + 1 ≤ c.sectorCount) : back c (back c w i) 1 = back c w (i + 1) := by
  unfold back
  split <;> split <;> split <;> omega

theorem back_last : back c w (c.sectorCount - 1) = next c w := by
  unfold back next
  split <;> split <;> omega

end

/-- The sectors other than `w`, from the one before it on: those that are closed, with their entries,
and those that are empty. -/
structure Ring (c : Config) (f : Flash) (w : ℕ) (hist : List (List Entry)) : Prop where
  closed : ∀ i (h : i < hist.length), ∃ p o, Closed c f (back c w (i + 1)) hist[i] p o
  erased : ∀ i, hist.length < i → i < c.sectorCount → Erased c f (back c w i) 0 c.sectorSize

theorem closeAte_not_erased : ateCmpConst (closeAte c o) c.eraseValue = false := by
  rw [ateCmpConst, Bool.eq_false_iff, ne_eq, all_eq_true]
  intro hall
  -- an entry that closes a sector has bytes `0xff` and bytes zero
  have hbytes : (closeAte c o).bytes =
      leBytes 2 0xFFFF ++ leBytes 2 (o + ateSize c) ++ leBytes 2 0 ++ [0xff] ++
        [(closeAte c o).crc8] := rfl
  have h1 := of_decide_eq_true (hall 0xff (by rw [hbytes]; simp))
  have h2 := of_decide_eq_true (hall 0 (by rw [hbytes]; simp [leBytes]))
  exact absurd (h1.trans h2.symm) (by decide)

theorem closeAte_valid (hc : c.Good) (ho : o < top c) (hdvd : ateSize c ∣ o) :
    closeAteValid c (closeAte c o) = true := by
  obtain ⟨-, hpos, -, hsize, hend⟩ := hc.sizes
  have hmod : (c.sectorSize - (o + ateSize c)) % ateSize c = 0 :=
    Nat.mod_eq_zero_of_dvd (Nat.dvd_sub hc.dvd (Nat.dvd_add hdvd (dvd_refl _)))
  have hoffs : addrOffs (c.sectorSize - ateSize c) = c.sectorSize - ateSize c := by
    unfold addrOffs
    omega
  simp only [closeAteValid, ateValid, Bool.and_eq_true, decide_eq_true_iff]
  refine ⟨⟨⟨⟨decide_eq_true rfl, ?_⟩, rfl⟩, rfl⟩, hmod⟩
  show o + ateSize c + 0 ≤ _
  omega

section

variable (hc : c.Good) (hw : w < c.sectorCount)
include hc hw

theorem prevAte_within (hrd : flashAteRd c fs.flash (addrOf w x) = .ok ate) (hx : x < top c) :
    prevAte c fs (addrOf w x) = .ok (ate, addrOf w (x + ateSize c)) := by
  obtain ⟨-, -, -, hsize, hend⟩ := hc.sizes
  have hcount := hc.count_lt
  rw [prevAte, hrd, ok_bind, add32_addrOf (by omega) (by omega)]
  dsimp only
  rw [addrOffs_addrOf (by omega), if_pos (by omega)]
  rfl

section

variable (hrd : flashAteRd c fs.flash (addrOf w (top c)) = .ok ate)
include hrd

theorem prevAte_top
    (hclose : flashAteRd c fs.flash (addrOf (back c w 1) (c.sectorSize - ateSize c)) = .ok close) :
    prevAte c fs (addrOf w (top c)) =
      (if ateCmpConst close c.eraseValue then .ok (ate, fs.ateWra)
        else if closeAteValid c close then
          .ok (ate, addrOf (back c w 1) 0 + close.offset)
        else do
          return (ate, ← recoverLastAte c fs.flash
            (addrOf (back c w 1) (c.sectorSize - ateSize c)))) := by
  obtain ⟨hate, hpos, hfour, hsize, hend⟩ := hc.sizes
  have hcount := hc.count_lt
  have hprev : (if addrOf w (top c + ateSize c) / 2 ^ 16 = 0 then
        add32 (addrOf w (top c + ateSize c)) ((c.sectorCount - 1) * 2 ^ 16)
      else sub32 (addrOf w (top c + ateSize c)) (2 ^ 16)) =
        addrOf (back c w 1) (c.sectorSize - ateSize c) := by
    unfold back add32 sub32 addrOf
    split <;> split <;> omega
  rw [prevAte, hrd, ok_bind, add32_addrOf (by omega) (by omega)]
  dsimp only
  rw [addrOffs_addrOf (by omega), if_neg (by omega), hprev, hclose, ok_bind, addrSect_addrOf (by omega)]
  rfl

theorem prevAte_erased
    (hclose : Erased c fs.flash (back c w 1) (c.sectorSize - ateSize c) c.sectorSize) :
    prevAte c fs (addrOf w (top c)) = .ok (ate, fs.ateWra) := by
  have hfour := hc.four
  have hpos := sizeofAte_le hc
  have hlt : back c w 1 < c.sectorCount := back_lt hw
  have hbytes := hclose.bytes (n := sizeofAte) le_rfl (by omega)
  rw [prevAte_top hc hw hrd (ateRd_addrOf hc hlt fs.flash (by omega)), hbytes,
    if_pos ateCmpConst_erased]

theorem prevAte_closed (hclosed : Closed c fs.flash (back c w 1) es p o) :
    prevAte c fs (addrOf w (top c)) = .ok (ate, addrOf (back c w 1) (o + ateSize c)) := by
  have hfour := hc.four
  have hpos := sizeofAte_le hc
  have hsize := hc.size_le
  have hlt : back c w 1 < c.sectorCount := back_lt hw
  have ho : o < top c := by
    have hoff := hclosed.slots.offset
    have hlen := Nat.mul_le_mul_right (ateSize c) (length_pos_iff.2 hclosed.ne_nil)
    unfold sizeofAte at hpos
    omega
  have htop : top c + 2 * ateSize c = c.sectorSize := by
    unfold top
    omega
  unfold sizeofAte at hpos
  rw [prevAte_top hc hw hrd (ateRd_addrOf hc hlt fs.flash (by unfold sizeofAte; omega)), hclosed.close, Ate.ofBytes_bytes, closeAte_not_erased, if_pos (closeAte_valid hc ho (hclosed.slots.dvd hc)), addrOf_add, Nat.zero_add]
  · rfl
  · exact (by decide : 0xFFFF < 2 ^ 16)
  · show o + ateSize c < 2 ^ 16
    omega
  · exact Nat.two_pow_pos 16

end

end

def slotsOf (c : Config) (w : ℕ) : List Entry → List (ℕ × Entry)
  | [] => []
  | e :: es => (addrOf w (top c - es.length * ateSize c), e) :: slotsOf c w es

def ringSlots (c : Config) (w : ℕ) : ℕ → List (List Entry) → List (ℕ × Entry)
  | _, [] => []
  | i, es :: hist => slotsOf c (back c w i) es ++ ringSlots c w (i + 1) hist

/-- From address `a` the code goes through these entries to the end, where it comes to the write
address. -/
inductive Trail (c : Config) (fs : Fs) : ℕ → List (ℕ × Entry) → Prop
  | nil : Trail c fs fs.ateWra []
  | cons {a b : ℕ} {e : Entry} {es : List (ℕ × Entry)} : prevAte c fs a = .ok (e.ate c, b) →
      ateValid a (e.ate c) = true → a ≠ fs.ateWra → Trail c fs b es → Trail c fs a ((a, e) :: es)

/-- From the first entry of sector `w` the code goes to address `b`. -/
def Crosses (c : Config) (fs : Fs) (w b : ℕ) : Prop :=
  ∀ ate, flashAteRd c fs.flash (addrOf w (top c)) = .ok ate →
    prevAte c fs (addrOf w (top c)) = .ok (ate, b)

theorem map_snd_slotsOf : (slotsOf c w es).map Prod.snd = es := by
  induction es with
  | nil => rfl
  | cons e es ih => rw [slotsOf, map_cons, ih]

theorem map_snd_ringSlots : (ringSlots c w i hist).map Prod.snd = hist.flatten := by
  induction hist generalizing i with
  | nil => rfl
  | cons es hist ih => rw [ringSlots, map_append, map_snd_slotsOf, ih, flatten_cons]

theorem Trail.of_slots (hc : c.Good) (hw : w < c.sectorCount) (h : Slots c fs.flash w es p o)
    (hne : es ≠ []) (hcross : Crosses c fs w b) (htail : Trail c fs b T)
    (haddr : ∀ x, o < x → x ≤ top c → addrOf w x ≠ fs.ateWra) :
    Trail c fs (addrOf w (o + ateSize c)) (slotsOf c w es ++ T) := by
  induction h with
  | nil => exact absurd rfl hne
  | @cons e es p o hes hp hfits hat ih =>
    have hslot := hfits.slot
    have hpos := sizeofAte_le hc
    have htop := hes.le_top
    have hrd := ateRd_ate hc hw hat hfits htop
    have hoff := hes.offset
    unfold sizeofAte at hpos
    rw [Nat.sub_add_cancel hslot, slotsOf, ← Nat.eq_sub_of_add_eq hoff]
    refine .cons (b := if es = [] then b else addrOf w (o + ateSize c)) ?_
      (ateValid_ate hc hfits htop) (haddr o (by omega) htop) ?_
    · split
      next hnil =>
        subst hnil
        obtain rfl : o = top c := by simpa using hoff
        exact hcross _ hrd
      next hcons =>
        have hlen := Nat.mul_le_mul_right (ateSize c) (length_pos_iff.2 hcons)
        exact prevAte_within hc hw hrd (by omega)
    · split
      next hnil =>
        subst hnil
        exact htail
      next hcons => exact ih hcons fun x h1 h2 => haddr x (by omega) h2

theorem Trail.of_closed (hist : List (List Entry)) (hc : c.Good) (hw : w < c.sectorCount) (hate : fs.ateWra = addrOf w o)
    (ho : o < 2 ^ 16) (hi : i + hist.length < c.sectorCount)
    (hclosed : ∀ j (h : j < hist.length), ∃ p o, Closed c fs.flash (back c w (i + 1 + j)) hist[j] p o)
    (hend : Erased c fs.flash (back c w (i + 1 + hist.length)) (c.sectorSize - ateSize c)
      c.sectorSize) :
    ∃ b, Crosses c fs (back c w i) b ∧ Trail c fs b (ringSlots c w (i + 1) hist) := by
  have hsize := hc.size_le
  have hpos := sizeofAte_le hc
  unfold sizeofAte at hpos
  have hlt : back c w i < c.sectorCount := back_lt hw
  induction hist generalizing i with
  | nil =>
    refine ⟨fs.ateWra, fun ate hrd => ?_, .nil⟩
    exact prevAte_erased hc hlt hrd (by rwa [back_back hw ((Nat.le_add_right ..).trans_lt hi)])
  | cons es hist ih =>
    rw [length_cons] at hi hend
    obtain ⟨p, q, hes⟩ := hclosed 0 (by simp)
    have hlt' : back c w (i + 1) < c.sectorCount := back_lt hw
    obtain ⟨b, hcross, htail⟩ := ih (by omega)
      (fun j hj => by
        have := hclosed (j + 1) (by simpa using hj)
        rwa [getElem_cons_succ, show i + 1 + (j + 1) = i + 1 + 1 + j by omega] at this)
      (by rwa [show i + 1 + 1 + hist.length = i + 1 + (hist.length + 1) by omega]) hlt'
    refine ⟨addrOf (back c w (i + 1)) (q + ateSize c), fun ate hrd => ?_, ?_⟩
    · rw [← back_back hw (by omega)] at hes ⊢
      exact prevAte_closed hc hlt hrd hes
    · refine .of_slots hc hlt' hes.slots hes.ne_nil hcross htail fun x _ hx heq => ?_
      rw [hate] at heq
      unfold top at hx
      exact back_ne (by omega) (by omega) (addrOf_inj (by omega) ho heq).1

theorem Front.trail (hc : c.Good) (hw : w < c.sectorCount) (h : Front c fs.flash w es p d o)
    (hring : Ring c fs.flash w hist) (hhist : hist.length < c.sectorCount)
    (hate : fs.ateWra = addrOf w o) :
    ∃ b, prevAte c fs fs.ateWra =
        .ok (Ate.ofBytes (fs.flash.bytes (base c w + o) sizeofAte), b) ∧
      Trail c fs b (slotsOf c w es ++ ringSlots c w 1 hist) := by
  have hsize := hc.size_le
  have hfour := hc.four
  have hpos := sizeofAte_le hc
  have hoff := h.slots.offset
  have htop : top c + 2 * ateSize c = c.sectorSize := by
    unfold top
    omega
  have hpos' := hpos
  unfold sizeofAte at hpos'
  have hend : Erased c fs.flash (back c w (1 + hist.length)) (c.sectorSize - ateSize c)
      c.sectorSize := by
    obtain heq | hne := eq_or_lt_of_le (show 1 + hist.length ≤ c.sectorCount by omega)
    · rw [heq, back_self hw]
      exact h.notClosed
    · exact (hring.erased _ (by omega) hne).narrow (Nat.zero_le _) le_rfl
  obtain ⟨b, hcross, htail⟩ := Trail.of_closed (i := 0) hist hc hw hate (by omega) (by omega)
    (fun j hj => by simpa [add_comm] using hring.closed j hj) (by simpa using hend)
  have hrd := ateRd_addrOf hc hw fs.flash (o := o) (by omega)
  obtain rfl | hne := eq_or_ne es []
  · obtain rfl : o = top c := by simpa using hoff
    exact ⟨b, hate ▸ hcross _ hrd, htail⟩
  have hlen := Nat.mul_le_mul_right (ateSize c) (length_pos_iff.2 hne)
  refine ⟨addrOf w (o + ateSize c), hate ▸ prevAte_within hc hw hrd (by omega), ?_⟩
  refine .of_slots hc hw h.slots hne hcross htail fun x h1 h2 heq => ?_
  rw [hate] at heq
  have := (addrOf_inj (by omega) (by omega) heq).2
  omega

end ZephyrRtos.Nvs
