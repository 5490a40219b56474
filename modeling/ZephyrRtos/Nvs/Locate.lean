import ZephyrRtos.Nvs.States

namespace ZephyrRtos.Nvs

open List Lib Sys

variable {c : Config} {f : Flash} {w v p o d n i k a x : ℕ} {es : List Entry}
  {hist : List (List Entry)}

def NotClosed (c : Config) (f : Flash) (w : ℕ) : Prop :=
  f.bytes (base c w + (c.sectorSize - ateSize c)) sizeofAte = List.replicate sizeofAte c.eraseValue

theorem blankAte_iff (hc : c.Good) (hv : v < c.sectorCount) (hx : x + sizeofAte ≤ c.sectorSize) :
    blankAte c f (addrOf v x) = true ↔
      f.bytes (base c v + x) sizeofAte = replicate sizeofAte c.eraseValue := by
  rw [blankAte, decide_eq_true_iff, flashCmpConst, flashCmp_eq hc f hv
    (by rw [length_replicate]) (by rw [length_replicate]; exact hx),
    length_replicate]
  simp

theorem blankAte_close (hc : c.Good) (hv : v < c.sectorCount) :
    blankAte c f (addrOf v (c.sectorSize - ateSize c)) = true ↔ NotClosed c f v := by
  have hfour := hc.four
  have hpos := sizeofAte_le hc
  exact blankAte_iff hc hv (by omega)

theorem Closed.not_notClosed (h : Closed c f w es p o) : ¬NotClosed c f w := by
  intro hblank
  have hcmp := closeAte_not_erased (c := c) (o := o)
  rw [ateCmpConst, ← h.close, hblank] at hcmp
  simp at hcmp

theorem Erased.notClosed (hc : c.Good) (h : Erased c f w 0 c.sectorSize) : NotClosed c f w := by
  have hfour := hc.four
  have hpos := sizeofAte_le hc
  exact h.bytes (Nat.zero_le _) (by omega)

theorem Front.not_closed (hc : c.Good) (h : Front c f w es p d o) : NotClosed c f w := by
  have hfour := hc.four
  have hpos := sizeofAte_le hc
  exact h.notClosed.bytes le_rfl (by omega)

section

variable (hc : c.Good)
include hc

theorem scan_addr : i * 2 ^ 16 + addrOffs (c.sectorSize - ateSize c) =
    addrOf i (c.sectorSize - ateSize c) := by
  obtain ⟨-, hpos, -, hsize, -⟩ := hc.sizes
  unfold addrOf addrOffs
  omega

theorem close_lt : c.sectorSize - ateSize c < 2 ^ 16 := by
  obtain ⟨-, hpos, -, hsize, -⟩ := hc.sizes
  omega

theorem scanSectors_open (hall : ∀ v < c.sectorCount, NotClosed c f v) (hn : i + n = c.sectorCount) :
    scanSectors c f n i k a = (c.sectorCount, k,
      if n = 0 then a else addrOf (c.sectorCount - 1) (c.sectorSize - ateSize c)) := by
  induction n generalizing i a with
  | zero =>
    rw [← hn]
    rfl
  | succ n ih =>
    rw [scanSectors]
    rw [scan_addr hc, if_pos ((blankAte_close hc (by omega)).2 (hall i (by omega))), ih (by omega),
      if_neg (Nat.succ_ne_zero n)]
    split
    next hzero =>
      rw [show c.sectorCount - 1 = i by omega]
    next => rfl

theorem scanSectors_found (hq : q < c.sectorCount) (hi : i ≤ q) (hn : i + n = c.sectorCount)
    (hall : ∀ v, i ≤ v → v < q → NotClosed c f v ∨ ¬NotClosed c f (next c v))
    (hclosed : ¬NotClosed c f q) (hopen : NotClosed c f (next c q)) :
    ∃ k', scanSectors c f n i k a = (q, k', addrOf (next c q) (c.sectorSize - ateSize c)) ∧
      k' ≤ k + (q - i) + 1 ∧ ∀ v, i ≤ v → v < q → NotClosed c f v → k' ≤ k + (q - i) := by
  induction n generalizing i k a with
  | zero => omega
  | succ n ih =>
    have hadv := advance_addrOf hc.count_lt (show i < c.sectorCount by omega) (close_lt hc)
    rw [scanSectors, scan_addr hc, hadv]
    obtain rfl | hlt := eq_or_lt_of_le hi
    · rw [if_neg (fun h => hclosed ((blankAte_close hc hq).1 h)),
        if_pos ((blankAte_close hc (next_lt hq)).2 hopen)]
      exact ⟨k + 1, rfl, by omega, fun v h1 h2 => by omega⟩
    have hil : i < c.sectorCount := by omega
    by_cases hblank : NotClosed c f i
    · rw [if_pos ((blankAte_close hc hil).2 hblank)]
      obtain ⟨k', heq, hle, -⟩ := ih hlt
        (by omega) (fun v h1 h2 => hall v (by omega) h2)
      exact ⟨k', heq, by omega, fun _ _ _ _ => by omega⟩
    have hnext := (hall i le_rfl hlt).resolve_left hblank
    rw [if_neg (fun h => hblank ((blankAte_close hc hil).1 h)),
      if_neg (fun h => hnext ((blankAte_close hc (next_lt hil)).1 h))]
    obtain ⟨k', heq, hle, hless⟩ := ih
      hlt (by omega)
      (fun v h1 h2 => hall v (by omega) h2)
    refine ⟨k', heq, by omega, fun v h1 h2 hv => ?_⟩
    obtain rfl | hlt' := eq_or_lt_of_le h1
    · exact absurd hv hblank
    · have := hless v hlt' h2 hv
      omega

end

theorem Slots.recoverLoop (hc : c.Good) (hw : w < c.sectorCount) (h : Slots c f w es p o) (n : ℕ) :
    recoverLoop c f (n + es.length) (addrOf w (top c)) (addrOf w 0) (addrOf w (top c)) =
      Nvs.recoverLoop c f n (addrOf w o) (addrOf w p)
        (addrOf w (if es = [] then top c else o + ateSize c)) := by
  induction h generalizing n with
  | nil => rw [if_pos rfl, length_nil, add_zero]
  | @cons e es p o hes hp hfits hat ih =>
    obtain ⟨-, hpos, -, hsize, hend⟩ := hc.sizes
    have htop := hes.le_top
    have hslot := hfits.slot
    have hle := hfits.le
    have hfin : e.offset ≤ e.fin c := Nat.le_add_right ..
    have hrd := ateRd_ate hc hw hat hfits htop
    have hvalid := ateValid_ate (w := w) hc hfits htop
    rw [length_cons, ← add_assoc, add_right_comm, ih (n + 1), Nvs.recoverLoop, if_pos,
      hrd, ok_bind, if_pos hvalid, sub32_addrOf (hw.trans hc.count_lt) (by omega) hslot,
      addrSect_addrOf (by omega), if_neg (cons_ne_nil _ _),
      show (e.ate c).offset = e.offset from rfl, show (e.ate c).len = e.len c from rfl, addrOf_add,
      addrOf_add, zero_add, Nat.sub_add_cancel hslot, Entry.fin]
    rw [addrOffs_addrOf (by omega)]
    unfold addrOf
    omega

theorem Slots.oldest (h : Slots c f w es p o) (hne : es ≠ []) :
    ∃ e, f.bytes (base c w + top c) sizeofAte = (Entry.ate c e).bytes ∧ e.Fits c (top c) := by
  induction h with
  | nil => exact absurd rfl hne
  | @cons e es p o hes _ hfits hat ih =>
    cases hes with
    | nil => exact ⟨e, hat, hfits⟩
    | cons _ _ _ _ => exact ih (cons_ne_nil _ _)

theorem recoverLoop_eq (hc : c.Good) (hw : w < c.sectorCount) (hx : x ≤ top c) (hdvd : ateSize c ∣ x)
    (hnone : ∀ y, p ≤ y → y ≤ x → ateSize c ∣ y →
      ateValid (addrOf w y) (Ate.ofBytes (f.bytes (base c w + y) sizeofAte)) = false) :
    recoverLoop c f n (addrOf w x) (addrOf w p) a = .ok a := by
  obtain ⟨hate, hpos, -, hsize, hend⟩ := hc.sizes
  induction n generalizing x with
  | zero => rfl
  | succ n ih =>
    rw [recoverLoop]
    split
    next hcond =>
      rw [addrOffs_addrOf (by omega)] at hcond
      have hle : p ≤ x := by
        have := hcond.1
        unfold addrOf at this
        omega
      have hA := Nat.le_of_dvd (pos_of_ne_zero hcond.2) hdvd
      rw [ateRd_addrOf hc hw f (by omega), ok_bind, hnone x hle le_rfl hdvd, sub32_addrOf (hw.trans hc.count_lt) (by omega) hA]
      exact ih (by omega) (Nat.dvd_sub hdvd (dvd_refl _)) fun y h1 h2 => hnone y h1 (by omega)
    next => rfl

theorem ate_not_erased {e : Entry} (hc : c.Good) (hfits : e.Fits c o) (ho : o ≤ top c) :
    ateCmpConst (e.ate c) c.eraseValue = false := by
  have hvalid := ateValid_ate (w := 0) hc hfits ho
  obtain ⟨hoff, hlen⟩ := hfits.lt hc ho
  rw [Bool.eq_false_iff]
  intro hcmp
  have hbytes : (e.ate c).bytes = replicate sizeofAte c.eraseValue := by
    refine eq_replicate_iff.2 ⟨Ate.length_bytes _, fun x hx => ?_⟩
    rw [ateCmpConst, all_eq_true] at hcmp
    exact of_decide_eq_true (hcmp x hx)
  rw [← Ate.ofBytes_bytes (e.ate c) hfits.id_lt hoff hlen, hbytes, ateValid_erased hc] at hvalid
  exact absurd hvalid (by decide)

theorem Front.lastAteLoop (hc : c.Good) (hw : w < c.sectorCount) (h : Front c f w es p d o) (n : ℕ) :
    lastAteLoop c f (addrOf w (if es = [] then top c else o + ateSize c)) (n + 2)
      (addrOf w (if es = [] then top c else o + ateSize c)) (addrOf w 0) =
        .ok (addrOf w o, addrOf w (alSize c p)) := by
  obtain ⟨hate, hpos, -, hsize, hend⟩ := hc.sizes
  cases hslots : h.slots with
  | nil =>
    have hempty := h.empty rfl
    rw [if_pos rfl, Nvs.lastAteLoop, if_pos (by unfold addrOf; omega),
      ateRd_addrOf hc hw f (by omega), ok_bind, h.erased.bytes (by omega) (by omega),
      if_pos ateCmpConst_erased, alSize_zero hc]
    rfl
  | @cons e es p o hes hp hfits hat =>
    have htop' := hes.le_top
    have hslot := hfits.slot
    have hfin : e.offset + e.len c = e.fin c := rfl
    have hlast := h.last
    have herased := h.erased
    have hal := le_alSize hc (e.fin c)
    have hsub := sub32_addrOf (hw.trans hc.count_lt) (by omega) hslot
    rw [if_neg (cons_ne_nil _ _), Nat.sub_add_cancel hslot, Nvs.lastAteLoop,
      if_pos (by unfold addrOf; omega), ateRd_ate hc hw hat hfits htop', ok_bind,
      ate_not_erased hc hfits htop', if_neg (by decide), if_pos (ateValid_ate hc hfits htop')]
    rw [addrSect_addrOf (by omega), addrOf_add, zero_add,
      show (e.ate c).offset = e.offset from rfl, show (e.ate c).len = e.len c from rfl, hfin,
      if_neg, hsub, Nvs.lastAteLoop]
    · split
      next hcond =>
        have hdo : d ≤ o - ateSize c := by
          by_contra hlt
          obtain ⟨e', tl, heq, -, hoff⟩ := hlast (by omega)
          obtain ⟨rfl, -⟩ := cons.inj heq
          unfold addrOf at hcond
          omega
        rw [ateRd_addrOf hc hw f (by omega), ok_bind, herased.bytes hdo (by omega),
          if_pos ateCmpConst_erased]
        rfl
      next => rfl
    · rintro ⟨heq, hlen⟩
      have hroom := hfits.room (.inl fun hnil => hlen (Entry.len_eq_zero.2 hnil))
      unfold addrOf at heq
      omega

theorem Slots.gcDoneMarker (hc : c.Good) (hw : w < c.sectorCount) (h : Slots c f w es p o)
    (hn : es.length ≤ n) :
    ∃ b, gcDoneMarker c f n (addrOf w (o + ateSize c)) = .ok b ∧ (b = true ↔ ∃ e ∈ es, e.IsMark) := by
  obtain ⟨-, hpos, hfour, hsize, hend⟩ := hc.sizes
  induction h generalizing n with
  | nil =>
    refine ⟨false, ?_, by simp⟩
    cases n with
    | zero => rfl
    | succ n =>
      rw [Nvs.gcDoneMarker, addrOffs_addrOf (by omega), if_neg (by omega)]
      rfl
  | @cons e es p o hes hp hfits hat ih =>
    obtain ⟨n, rfl⟩ : ∃ m, n = m + 1 := Nat.exists_eq_add_of_le' (le_trans (by simp) hn)
    have htop' := hes.le_top
    have hslot := hfits.slot
    have hmark : (ateValid (addrOf w o) (e.ate c) = true ∧ (e.ate c).id = 0xFFFF ∧ (e.ate c).len = 0) ↔
        e.IsMark := by
      rw [show (e.ate c).len = e.len c from rfl, Entry.len_eq_zero]
      exact ⟨fun h => h.2, fun h => ⟨ateValid_ate hc hfits htop', h⟩⟩
    rw [Nat.sub_add_cancel hslot, Nvs.gcDoneMarker, addrOffs_addrOf (by omega), if_pos (by omega),
      ateRd_ate hc hw hat hfits htop', ok_bind]
    by_cases he : e.IsMark
    · rw [if_pos (hmark.2 he)]
      exact ⟨true, rfl, fun _ => ⟨e, mem_cons_self .., he⟩, fun _ => rfl⟩
    rw [if_neg (fun h => he (hmark.1 h))]
    obtain ⟨b, heq, hb⟩ := ih (Nat.le_of_succ_le_succ hn)
    refine ⟨b, ?_, hb.trans ⟨fun ⟨x, hx, hm⟩ => ⟨x, mem_cons_of_mem _ hx, hm⟩, ?_⟩⟩
    · rwa [add32_addrOf (hw.trans hc.count_lt) (by omega)]
    · rintro ⟨x, hx, hm⟩
      obtain rfl | hx := mem_cons.1 hx
      · exact absurd hm he
      · exact ⟨x, hx, hm⟩

theorem exists_back (hw : w < c.sectorCount) (hv : v < c.sectorCount) :
    ∃ i < c.sectorCount, back c w i = v := by
  obtain hle | hlt := le_total v w
  · refine ⟨w - v, by omega, ?_⟩
    unfold back
    rw [if_pos (by omega)]
    omega
  obtain rfl | hne := eq_or_ne v w
  · exact ⟨0, by omega, back_zero⟩
  · refine ⟨w + c.sectorCount - v, by omega, ?_⟩
    unfold back
    rw [if_neg (by omega)]
    omega

theorem next_back (hw : w < c.sectorCount) (hi : i + 1 < c.sectorCount) :
    next c (back c w (i + 1)) = back c w i := by
  unfold back next
  split <;> split <;> split <;> omega

theorem Ring.notClosed (hc : c.Good) (hring : Ring c f w hist)
    (hfront : NotClosed c f w) (hi : i < c.sectorCount) :
    NotClosed c f (back c w i) ↔ i = 0 ∨ hist.length < i := by
  obtain rfl | hpos := eq_zero_or_pos i
  · exact ⟨fun _ => .inl rfl, fun _ => hfront⟩
  · obtain ⟨j, rfl⟩ : ∃ j, i = j + 1 := Nat.exists_eq_add_of_le' hpos
    by_cases hj : j < hist.length
    · obtain ⟨p, o, hclosed⟩ := hring.closed j hj
      exact ⟨fun h => absurd h hclosed.not_notClosed, fun h => by omega⟩
    · exact ⟨fun _ => .inr (by omega), fun _ => (hring.erased _ (by omega) hi).notClosed hc⟩

theorem scanSectors_eq (hc : c.Good) (hw : w < c.sectorCount) (hring : Ring c f w hist)
    (hfront : NotClosed c f w) :
    hist = [] ∧ scanSectors c f c.sectorCount 0 0 0 =
        (c.sectorCount, 0, addrOf (c.sectorCount - 1) (c.sectorSize - ateSize c)) ∨
      ∃ q k, q < c.sectorCount ∧ k ≠ c.sectorCount ∧ scanSectors c f c.sectorCount 0 0 0 =
        (q, k, addrOf w (c.sectorSize - ateSize c)) := by
  have htwo := hc.two
  by_cases hnil : hist = []
  · refine .inl ⟨hnil, ?_⟩
    rw [scanSectors_open hc _ (zero_add _), if_neg (by omega)]
    intro v hv
    obtain ⟨i, hi, rfl⟩ := exists_back hw hv
    refine (hring.notClosed hc hfront hi).2 ?_
    rw [hnil, length_nil]
    omega
  · have hlen := length_pos_iff.2 hnil
    have hq : back c w 1 < c.sectorCount := back_lt hw
    have hnext : next c (back c w 1) = w := by rw [next_back hw (by omega), back_zero]
    have hall : ∀ v, 0 ≤ v → v < back c w 1 → NotClosed c f v ∨ ¬NotClosed c f (next c v) := by
      intro v _ hv
      obtain ⟨i, hi, rfl⟩ := exists_back hw (hv.trans hq)
      by_cases hclosed : i = 0 ∨ hist.length < i
      · exact .inl ((hring.notClosed hc hfront hi).2 hclosed)
      obtain ⟨j, rfl⟩ : ∃ j, i = j + 1 := Nat.exists_eq_add_of_le' (by omega)
      refine .inr fun h => ?_
      rw [next_back hw hi] at h
      obtain rfl | hj := (hring.notClosed hc hfront (by omega)).1 h
      · exact absurd hv (lt_irrefl _)
      · omega
    have hclosed : ¬NotClosed c f (back c w 1) := fun h => by
      have := (hring.notClosed hc hfront (by omega)).1 h
      omega
    obtain ⟨k, heq, hle, hless⟩ := scanSectors_found hc hq (Nat.zero_le _)
      (zero_add _) hall hclosed (by rwa [hnext])
    rw [hnext] at heq
    refine .inr ⟨_, k, hq, ?_, heq⟩
    -- the write sector is not closed, and it is met before if the sectors wrap
    by_cases hlt : back c w 1 + 1 < c.sectorCount
    · omega
    · have hw0 : w = 0 := by
        rw [next, if_pos (by omega)] at hnext
        exact hnext.symm
      have := hless w (Nat.zero_le _) (by omega) hfront
      omega

theorem Front.locate (hc : c.Good) (hw : w < c.sectorCount) (h : Front c f w es p d o)
    (hring : Ring c f w hist) (hfirst : hist = [] → w = 0 ∨ w + 1 = c.sectorCount ∧ es ≠ [])
    (hnone : ∀ y, p ≤ y → y ≤ o → ateSize c ∣ y →
      ateValid (addrOf w y) (Ate.ofBytes (f.bytes (base c w + y) sizeofAte)) = false) :
    locate c f = .ok (addrOf w o, addrOf w (alSize c p)) := by
  have htwo := hc.two
  obtain ⟨hate, hpos, -, hsize, hend⟩ := hc.sizes
  have hcount := hc.count_lt
  have htopAddr : ∀ v < c.sectorCount, sub32 (addrOf v (c.sectorSize - ateSize c)) (ateSize c) =
      addrOf v (top c) := by
    intro v hv
    rw [sub32_addrOf (by omega) (by omega) (by omega)]
    congr 1
    omega
  have hend : (do
      let addr ← recoverLastAte c f (addrOf w (c.sectorSize - ateSize c))
      Nvs.lastAteLoop c f addr (c.sectorSize + 1) addr (addrSect addr)) =
        Except.ok (addrOf w o, addrOf w (alSize c p)) := by
    have hlen := h.slots.length_lt hc
    obtain ⟨n, hn⟩ : ∃ n, c.sectorSize + 1 = n + es.length := ⟨c.sectorSize + 1 - es.length, by omega⟩
    obtain ⟨m, hm⟩ : ∃ m, c.sectorSize + 1 = m + 2 := ⟨c.sectorSize - 1, by omega⟩
    have hoff := h.slots.offset
    have hlt : (if es = [] then top c else o + ateSize c) < 2 ^ 16 := by split <;> omega
    rw [recoverLastAte, htopAddr w hw, addrSect_addrOf (by omega), hn, h.slots.recoverLoop hc hw,
      recoverLoop_eq hc hw h.slots.le_top (h.slots.dvd hc) hnone, ok_bind, addrSect_addrOf hlt, ← hn,
      hm, h.lastAteLoop hc hw]
  rw [Nvs.locate]
  obtain ⟨hnil, hscan⟩ | ⟨q, k, hq, hk, hscan⟩ := scanSectors_eq hc hw hring (h.not_closed hc)
  · rw [hscan]
    dsimp only
    rw [if_neg (by omega), htopAddr _ (by omega)]
    obtain rfl | ⟨hlast, hne⟩ := hfirst hnil
    · -- the last sector is empty
      have hback : back c 0 1 = c.sectorCount - 1 := by
        unfold back
        rw [if_neg (by omega)]
        omega
      have hblank : blankAte c f (addrOf (c.sectorCount - 1) (top c)) = true := by
        rw [blankAte_iff hc (by omega) (by omega), ← hback]
        exact (hring.erased 1 (by rw [hnil]; exact one_pos) (by omega)).bytes (Nat.zero_le _)
          (by omega)
      have hnext : next c (c.sectorCount - 1) = 0 := by
        unfold next
        rw [if_pos (by omega)]
      rwa [if_pos ⟨rfl, hblank⟩, advance_addrOf hcount (by omega) (by omega), hnext]
    · obtain rfl : w = c.sectorCount - 1 := by omega
      have hblank : ¬blankAte c f (addrOf (c.sectorCount - 1) (top c)) = true := by
        rw [blankAte_iff hc (by omega) (by omega)]
        obtain ⟨e, he, hfits⟩ := h.slots.oldest hne
        intro hbytes
        have hcmp := ate_not_erased hc hfits le_rfl
        rw [ateCmpConst, ← he, hbytes] at hcmp
        simp at hcmp
      rw [if_neg fun h => hblank h.2]
      exact hend
  · rw [hscan]
    dsimp only
    rwa [if_neg hk, if_neg fun h => by omega]

end ZephyrRtos.Nvs
