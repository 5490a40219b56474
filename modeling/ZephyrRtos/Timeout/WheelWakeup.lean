import ZephyrRtos.Timeout.Wakeup
import ZephyrRtos.Timeout.WheelRuns

/-! The deadline the timer wheel reports.  The slot at `soon_index` holds timeouts that
are due now or a whole rotation away; where neither can be there, the lowest bit of the
masked bitmap is the next thing to happen. -/

namespace ZephyrRtos.Timeout

open List Function Lib

variable {τ : Type} [DecidableEq τ] {cfg : Config}

namespace Wheel

/-- The bitmap is exact, and away from the end of a rotation nothing is one rotation
ahead. -/
structure Clear (s : State τ) : Prop where
  bits : ∀ i, s.soonBits.getLsbD i = true ↔
    s.lists (.soon i) ≠ [] ∧ ¬(s.announcing = 1 ∧ i = s.soonIndex)
  current : s.sifted = 0 → s.announcing = 0 → s.lists (.soon s.soonIndex) = []
  deferred : s.announcing = 1 → s.soonIndex ≠ 31 → s.lists .soonDefer = []

section Clear

variable {s s' : State τ} {t : τ} {d : ℤ} {b : Bool}

theorem Relinks.nonempty_iff (h : Relinks s s' t x) (ht : ∀ y, t ∉ s.lists y) (y : Slot) :
    s'.lists y ≠ [] ↔ s.lists y ≠ [] ∨ y = x := by
  by_cases hy : y = x
  · subst hy
    have hne : s'.lists y ≠ [] := by
      intro h0
      have := h.joins.length_eq
      simp [h0] at this
    simp [hne]
  · rw [h.others y hy, erase_of_not_mem (ht y)]
    simp [hy]

section

variable (h : Clear s)
include h

theorem clear_appendSoon (hr : Rests s) (ht : ∀ y, t ∉ s.lists y) (h1 : 1 ≤ d)
    (ha : d ≤ 32 - s.announcing) (h32 : d = 32 → s.soonIndex = 31) :
    Clear (timeoutWheelAppendSoon { s with dticks := update s.dticks t d } t) := by
  have hrel := relinks_soon ht d
  have hbits : ∀ i, (timeoutWheelAppendSoon { s with
      dticks := update s.dticks t d } t).soonBits.getLsbD i =
      (s.soonBits.getLsbD i || decide (i = ((d + s.soonIndex) % 32).toNat)) := by
    intro i
    simp only [timeoutWheelAppendSoon, update_self]
    exact getLsbD_or_bit _ (by omega)
  refine ⟨fun i => ?_, fun hs ha' => ?_, fun ha' hk' => ?_⟩
  · rw [hbits, Bool.or_eq_true, h.bits, decide_eq_true_eq, hrel.nonempty_iff ht]
    simp only [Slot.soon.injEq]
    -- while a slot is announced the new timeout is not put there
    have hne : s.announcing = 1 → ((d + s.soonIndex) % 32).toNat ≠ s.soonIndex := by omega
    constructor
    · rintro (⟨h1, h2⟩ | rfl)
      · exact ⟨.inl h1, h2⟩
      · exact ⟨.inr rfl, fun hc => hne hc.1 hc.2⟩
    · rintro ⟨h1 | h1, h2⟩
      · exact .inl ⟨h1, h2⟩
      · exact .inr h1
  · have hs0 : s.sifted = 0 := hs
    have ha0 : s.announcing = 0 := ha'
    have hne : ((d + s.soonIndex) % 32).toNat ≠ s.soonIndex := by
      have := hr.2
      omega
    have := hrel.nonempty_iff ht (.soon s.soonIndex)
    simp only [h.current hs0 ha0, ne_eq, not_true_eq_false, Slot.soon.injEq, false_or] at this
    by_contra hcon
    exact hne (this.1 hcon).symm
  · have := hrel.nonempty_iff ht .soonDefer
    simp only [h.deferred ha' hk', ne_eq, not_true_eq_false, reduceCtorEq, or_self, iff_false,
      not_not] at this
    exact this

theorem Clear.of_soon (hi : SameIndices s s') (hb : s'.soonBits = s.soonBits)
    (hl : ∀ i, s'.lists (.soon i) = s.lists (.soon i))
    (hd : s.announcing = 1 → s.soonIndex ≠ 31 → s'.lists .soonDefer = []) : Clear s' := by
  refine ⟨fun i => ?_, fun hs ha => ?_, fun ha hk => ?_⟩
  · rw [hb, hl, hi.announcing, hi.soonIndex]
    exact h.bits i
  · rw [hl, hi.soonIndex]
    exact h.current (hi.sifted ▸ hs) (hi.announcing ▸ ha)
  · exact hd (hi.announcing ▸ ha) (hi.soonIndex ▸ hk)

theorem Clear.insert (hw : Wf s) (hr : Rests s) (ht : ∀ y, t ∉ s.lists y) (h1 : 1 ≤ d)
    (h32 : d = 32 → s.soonIndex = 31) (hins : zTimeoutQInsert s t d = some (s', b)) : Clear s' := by
  obtain ⟨-, -, ⟨hd, rfl⟩ | ⟨rfl, -, rfl⟩ | ⟨-, -, -, rfl⟩ | ⟨-, -, -, rfl⟩⟩ := insert_cases hins
  · exact clear_appendSoon h hr ht h1 hd h32
  · refine h.of_soon ⟨rfl, rfl, rfl, rfl⟩ rfl (fun i => ?_) fun _ hk => absurd (h32 rfl) hk
    simp [timeoutWheelAppendSoonDefer, sysDlistAppend]
  · refine h.of_soon ⟨rfl, rfl, rfl, rfl⟩ rfl (fun i => ?_) fun ha' hk => ?_
    · simp [timeoutWheelAppendLater, sysDlistAppend]
    · simpa [timeoutWheelAppendLater, sysDlistAppend] using h.deferred ha' hk
  · refine h.of_soon ⟨rfl, rfl, rfl, rfl⟩ rfl (fun i => ?_) fun ha' hk => ?_
    · simp [timeoutWheelInsertDistant]
    · simpa [timeoutWheelInsertDistant] using h.deferred ha' hk

theorem Clear.unlink_deferred (hu : Unlinks s s' t) (ha : s'.announcing = 1)
    (hk : s'.soonIndex ≠ 31) : s'.lists .soonDefer = [] := by
  rw [hu.lists, h.deferred (hu.indices.announcing ▸ ha) (hu.indices.soonIndex ▸ hk)]
  rfl

theorem Clear.unlink_current (hu : Unlinks s s' t) (hs : s'.sifted = 0) (ha : s'.announcing = 0) :
    s'.lists (.soon s'.soonIndex) = [] := by
  rw [hu.lists, hu.indices.soonIndex,
    h.current (hu.indices.sifted ▸ hs) (hu.indices.announcing ▸ ha)]
  rfl

theorem Clear.remove (hw : Wf s) (hl : Linked s t) : Clear (timeoutWheelRemoveTimeout s t) := by
  have hu := unlinks_remove s t
  refine ⟨fun i => ?_, h.unlink_current hu, h.unlink_deferred hu⟩
  rw [hu.lists, hu.indices.announcing, hu.indices.soonIndex]
  obtain ⟨x, hx⟩ := hl
  have hf := hw.fits _ _ hx
  have hk := hw.soonIndex
  -- only the bit of the list `t` was on can change
  by_cases hi : x = .soon i
  · subst hi
    have hidx : uint32 (s.dticks t) = i := by
      rw [hf.2.2]
      exact uint32_natCast (by have := hf.1; omega)
    have hcond : (s.flagSoon t = true ∧ uint32 (s.dticks t) < 32 ∧
        (sysDlistRemove s t).lists (.soon (uint32 (s.dticks t))) = []) ↔
        (s.lists (.soon i)).erase t = [] := by
      rw [hidx]
      exact ⟨fun hc => hc.2.2, fun hc => ⟨hf.2.1, hf.1, hc⟩⟩
    simp only [timeoutWheelRemoveTimeout, timeoutWheelClearFlags]
    split
    · next hc =>
      rw [getLsbD_and_not_bit _ (by rw [hidx]; exact hf.1)]
      simp [hidx, hcond.1 hc]
    · next hc =>
      have hne : (s.lists (.soon i)).erase t ≠ [] := fun h0 => hc (hcond.2 h0)
      simp only [sysDlistRemove]
      rw [h.bits]
      simp [hne, ne_nil_of_mem hx]
  · have hnot : t ∉ s.lists (.soon i) := fun hmem => hi (hw.slot_unique hx hmem)
    have hbit : (timeoutWheelRemoveTimeout s t).soonBits.getLsbD i = s.soonBits.getLsbD i := by
      simp only [timeoutWheelRemoveTimeout, timeoutWheelClearFlags]
      split
      · next hc =>
        have hne : i ≠ uint32 (s.dticks t) := by
          rintro rfl
          cases x with
          | soon j =>
            refine hi ?_
            rw [hf.2.2, uint32_natCast (by have := hf.1; omega)]
          | soonDefer =>
            have h3 := uint32_eq (x := s.dticks t) (by rw [hf.2.2]; omega) (by rw [hf.2.2]; omega)
            have h4 := hf.2.2
            omega
          | later j => exact absurd hc.1 (by simp [hf.2.1])
          | distant => exact absurd hc.1 (by simp [hf.1])
        rw [getLsbD_and_not_bit _ hc.2.1]
        simp [hne]
      · rfl
    rw [hbit, erase_of_not_mem hnot]
    exact h.bits i

theorem Clear.pop (hw : Wf s) (ha : s.announcing = 1) (ht : t ∈ s.lists (.soon s.soonIndex)) :
    Clear (timeoutWheelClearFlags (sysDlistRemove s t) t) := by
  have hu := unlinks_pop s t
  refine ⟨fun i => ?_, h.unlink_current hu, h.unlink_deferred hu⟩
  rw [hu.lists]
  refine (h.bits i).trans (and_congr_left fun hi => ?_)
  have hnot : t ∉ s.lists (.soon i) := by
    intro hmem
    have := hw.slot_unique ht hmem
    simp only [Slot.soon.injEq] at this
    exact hi ⟨ha, this.symm⟩
  rw [erase_of_not_mem hnot]

theorem Clear.passes (hw : Wf s) (ha : s.announcing = 0) (hp : Passes s s' n) : Clear s' := by
  have hbits : ∀ i, s.soonBits.getLsbD i = true ↔ s.lists (.soon i) ≠ [] := by
    intro i
    rw [h.bits, ha]
    simp
  refine ⟨fun i => by rw [hp.bits, hp.lists, hbits], fun _ ha' => ?_, fun _ _ => ?_⟩
  · obtain ⟨next, h31, hcase, hmin⟩ := numTicks_spec hw.soonIndex
    have hidx := hp.soonIndex
    rw [hp.lists]
    by_contra hne
    have hle := hmin _ ((hbits _).2 hne)
    rcases hp.ticks with ⟨h0, hn, -⟩ | ⟨-, ha₁⟩ <;> omega
  · rw [hp.lists]
    exact hw.soonDefer_nil ha

end

def Marked (s : State τ) : Prop :=
  ∀ i, s.soonBits.getLsbD i = true ↔ s.lists (.soon i) ≠ []

theorem Gathers.marked (hg : Gathers s s' l) (h : Marked s)
    (hl : ∀ t ∈ l, ∀ i, t ∉ s.lists (.soon i)) : Marked s' := by
  intro i
  rw [hg.bits, h i]
  simp only [ne_eq, eq_nil_iff_forall_not_mem, not_forall, not_not]
  constructor
  · rintro (⟨u, hu⟩ | ⟨u, hu, rfl⟩)
    · exact ⟨u, ((hg.others u fun hul => hl u hul i hu).2 _).2 hu⟩
    · exact ⟨u, (hg.moved u hu _).2 rfl⟩
  · rintro ⟨u, hu⟩
    by_cases hul : u ∈ l
    · right
      exact ⟨u, hul, Slot.soon.inj ((hg.moved u hul _).1 hu)⟩
    · exact .inl ⟨u, ((hg.others u hul).2 _).1 hu⟩

theorem marked_siftDown (hw : Wf s) (h : Marked s) : Marked (timeoutWheelSiftDown s) := by
  have hg := gathers_sift hw
  have hm := hg.marked h fun t ht i hi => by
    simpa using hw.slot_unique (mem_reverse.1 ht) hi
  intro i
  exact hm i

theorem Clear.announceNowEnd (h : Clear s) (hw : Wf s) (hnil : s.lists (.soon s.soonIndex) = [])
    (ha : s.announcing = 1) (hs : s.sifted = 0) : Clear (announceNowEnd s) := by
  have hg := gathers_undefer hw
  have hm : Marked s := by
    intro i
    rw [h.bits]
    refine and_iff_left_of_imp fun hne hi => hne ?_
    rwa [hi.2]
  have hm' : Marked (undeferred s) := hg.marked hm fun t ht i hi => by
    simpa using hw.slot_unique ht hi
  obtain ⟨-, -, ha', -⟩ := announceNowEnd_spec hw hnil hs
  have hcur : Marked (Wheel.announceNowEnd s) := by
    rw [announceNowEnd_eq hw]
    split
    · exact marked_siftDown (wf_undeferred hw hnil) hm'
    · exact hm'
  refine ⟨fun i => ?_, fun hs' _ => ?_, fun h1 => by omega⟩
  · rw [hcur i, ha']
    simp
  · -- only at the end of a rotation can something have been deferred
    have hidx : s.soonIndex ≠ 31 := by
      intro h31
      rw [announceNowEnd_eq hw, if_pos h31] at hs'
      simp [siftDown_eq, siftLater] at hs'
    have hd := h.deferred ha hidx
    rwa [announceNowEnd_eq hw, if_neg hidx, undeferred, hd]

end Clear

structure Ready (s : State τ) : Prop where
  wf : Wf s
  rests : Rests s
  announcing : s.announcing = 0
  clear : Clear s

section NextExpiry

variable {s s' : State τ} {t : τ} {d : ℤ} {b : Bool}

section

omit [DecidableEq τ]

theorem Ready.current_nil (h : Ready s) (hk : s.soonIndex ≠ 31) :
    s.lists (.soon s.soonIndex) = [] := by
  have hr := h.rests
  refine h.clear.current ?_ h.announcing
  rcases hr with ⟨h1, h2⟩
  omega

theorem Ready.firstIndex_spec (h : Ready s) : firstIndex s ≤ 31 ∧
    (s.soonIndex = 31 ∨ s.soonIndex < firstIndex s) ∧
    (firstIndex s = 31 ∨ s.lists (.soon (firstIndex s)) ≠ []) ∧
    ∀ i, s.lists (.soon i) ≠ [] → s.soonIndex = 31 ∨ s.soonIndex ≤ i → firstIndex s ≤ i := by
  have hk := h.wf.soonIndex
  have hr1 := h.rests.1
  have hr2 := h.rests.2
  have ha := h.announcing
  have hcur := h.current_nil
  set b := if s.sifted = 0 then bitsFrom (s.soonBits ||| bit 32 31) s.soonIndex
    else s.soonBits ||| bit 32 31 with hb
  have hbit : ∀ i, b.getLsbD i = true ↔ (s.lists (.soon i) ≠ [] ∨ i = 31) ∧
      (s.soonIndex = 31 ∨ s.soonIndex ≤ i) := by
    intro i
    have hm : (s.soonBits ||| bit 32 31).getLsbD i = true ↔ s.lists (.soon i) ≠ [] ∨ i = 31 := by
      rw [getLsbD_or_bit _ (by omega), Bool.or_eq_true, h.clear.bits, ha]
      simp
    rw [hb]
    split
    · rw [getLsbD_bitsFrom, Bool.and_eq_true, hm, decide_eq_true_eq]
      refine and_congr_right fun _ => ?_
      omega
    · rw [hm]
      refine (and_iff_left ?_).symm
      omega
  have h31 : b.getLsbD 31 = true := (hbit 31).2 ⟨.inr rfl, by omega⟩
  have hle := ctz_le h31
  have hmin := (hbit _).1 (getLsbD_ctz (ne_zero_of_getLsbD h31))
  refine ⟨hle, ?_, hmin.1.symm, fun i hi hge => ctz_le ((hbit i).2 ⟨.inl hi, hge⟩)⟩
  by_cases hend : s.soonIndex = 31
  · exact .inl hend
  · -- the slot at `soon_index` is empty, so the mask might as well leave it out
    refine .inr (lt_of_le_of_ne (hmin.2.resolve_left hend) fun heq => ?_)
    change s.soonIndex = countTrailingZeros b at heq
    rw [← heq] at hmin
    exact hmin.1.elim (fun hc => hc (hcur hend)) hend

theorem Ready.nextExpiry_eq (h : Ready s) :
    zTimeoutQNextExpiry s = if s.soonIndex = 31 then (firstIndex s : ℤ) + 1
      else firstIndex s - s.soonIndex := by
  obtain ⟨hle, hgt, hocc, -⟩ := h.firstIndex_spec
  have hslot : zTimeoutQNextExpiry s = (31 - s.soonIndex + firstIndex s : ℤ) % 32 + 1 := by
    simp only [zTimeoutQNextExpiry, timeoutWheelFirst]
    cases hd : (s.lists (.soon (firstIndex s))).head? with
    | some t => simp [(h.wf.fits _ _ (mem_of_mem_head? hd)).2.2]
    | none =>
      have := hocc.resolve_right (not_not.2 (head?_eq_none_iff.1 hd))
      simp [this]
  split <;> omega

theorem Ready.nextExpiry_pos (h : Ready s) : 0 < zTimeoutQNextExpiry s := by
  obtain ⟨-, hgt, -⟩ := h.firstIndex_spec
  rw [h.nextExpiry_eq]
  split <;> omega

end

theorem Ready.nextExpiry_le (h : Ready s) (ht : Linked s t) :
    zTimeoutQNextExpiry s ≤ timeoutWheelRemainder s t := by
  obtain ⟨hle, -, -, hmin⟩ := h.firstIndex_spec
  have hr1 := h.rests.1
  have hr2 := h.rests.2
  have ha := h.announcing
  obtain ⟨x, hx⟩ := ht
  rw [h.nextExpiry_eq]
  cases x with
  | soon i =>
    have hi := (h.wf.fits _ _ hx).1
    have hfirst := hmin i (ne_nil_of_mem hx)
    rw [remainder_soon h.wf hx]
    split <;> split <;> omega
  | later j =>
    rw [remainder_later h.wf hx]
    split <;> omega
  | distant =>
    have hmem : t ∈ (deltaKeys s.dticks (cutoff s) (s.lists .distant)).map Prod.fst := by
      simpa using hx
    obtain ⟨⟨t, e⟩, hkey, rfl⟩ := mem_map.1 hmem
    have hfar : cutoff s ≤ e := le_of_mem_deltaKeys h.wf.distant_nonneg _ hkey
    rw [remainder_distant h.wf hkey]
    simp only [cutoff] at hfar
    split <;> omega
  | soonDefer => simp [h.wf.soonDefer_nil ha] at hx

theorem Ready.insert (h : Ready s) (ht : ∀ y, t ∉ s.lists y) (h1 : 1 ≤ d) (hm : d ≤ int64Max)
    (h32 : d = 32 → s.soonIndex = 31) (hins : zTimeoutQInsert s t d = some (s', b)) : Ready s' := by
  have hi := (h.wf.inserts ht hins).indices
  refine ⟨h.wf.insert ht hm hins, ?_, hi.announcing.trans h.announcing,
    h.clear.insert h.wf h.rests ht h1 h32 hins⟩
  simp only [Rests, hi.sifted, hi.soonIndex, hi.announcing]
  exact h.rests

theorem Ready.remove (h : Ready s) (ht : Linked s t) : Ready (timeoutWheelRemoveTimeout s t) := by
  have hu := unlinks_remove s t
  refine ⟨hu.wf h.wf, ?_, hu.indices.announcing.trans h.announcing, h.clear.remove h.wf ht⟩
  simp only [Rests, hu.indices.sifted, hu.indices.soonIndex, hu.indices.announcing]
  exact h.rests

theorem Ready.insert_soon (h : Ready s) (ht : ∀ y, t ∉ s.lists y)
    (hins : zTimeoutQInsert s t d = some (s', b)) (i : ℕ) :
    s'.lists (.soon i) = s.lists (.soon i) ∨ d ≤ 32 ∧ i = ((d + s.soonIndex) % 32).toNat := by
  have ha := h.announcing
  obtain ⟨-, -, ⟨hd, rfl⟩ | ⟨rfl, hd, rfl⟩ | ⟨-, -, -, rfl⟩ | ⟨-, -, -, rfl⟩⟩ := insert_cases hins
  · by_cases hi : i = ((d + s.soonIndex) % 32).toNat
    · exact .inr ⟨by omega, hi⟩
    · left
      rw [(relinks_soon ht d).others (.soon i) (by simpa using hi), erase_of_not_mem (ht _)]
  · omega
  · left
    rw [(relinks_later ht d).others (.soon i) nofun, erase_of_not_mem (ht _)]
  · simp [timeoutWheelInsertDistant]

theorem Ready.insert_first (h : Ready s) (ht : ∀ y, t ∉ s.lists y) (h1 : 1 ≤ d)
    (hlt : d < zTimeoutQNextExpiry s) (hins : zTimeoutQInsert s t d = some (s', b)) : b = true := by
  obtain ⟨hle, -, -, hmin⟩ := h.firstIndex_spec
  have ha := h.announcing
  rw [h.nextExpiry_eq] at hlt
  have hrd := h.insert ht h1 (by simp only [int64Max]; omega) (by omega) hins
  have hsoon := h.insert_soon ht hins
  obtain ⟨-, rfl, ⟨-, rfl⟩ | ⟨rfl, -⟩ | ⟨hn, -⟩ | ⟨hn, -⟩⟩ := insert_cases hins
  · set i := ((d + s.soonIndex) % 32).toNat with hi
    have hnil : s.lists (.soon i) = [] := by
      by_contra hne
      have := hmin i hne
      split at hlt <;> omega
    set q := timeoutWheelAppendSoon { s with dticks := update s.dticks t d } t with hq
    have hlist : q.lists (.soon i) = [t] := by
      rw [hq]
      simp [timeoutWheelAppendSoon, sysDlistAppend, ← hi, hnil]
    have hidx : q.soonIndex = s.soonIndex := rfl
    -- nothing else became occupied, so the first slot ahead is that of `t`
    have hfirst : firstIndex q = i := by
      obtain ⟨hle', hgt', hocc', hmin'⟩ := hrd.firstIndex_spec
      have hup := hmin' i (by simp [hlist])
      by_contra hne
      have hlow : firstIndex q = 31 ∨ s.lists (.soon (firstIndex q)) ≠ [] := by
        rcases hsoon (firstIndex q) with heq | ⟨-, heq⟩
        · rwa [heq] at hocc'
        · exact absurd heq hne
      rcases hlow with hlow | hlow
      · split at hlt <;> omega
      · have := hmin _ hlow
        split at hlt <;> omega
    exact decide_eq_true (by rw [timeoutWheelFirst, hfirst, hlist]; rfl)
  · omega
  · omega
  · omega

theorem Ready.nextExpiry_mono (h : Ready s) (h' : Ready s') (hidx : s'.soonIndex = s.soonIndex)
    (hocc : ∀ i, s'.lists (.soon i) ≠ [] → i = firstIndex s' → s.lists (.soon i) ≠ [] ∨
      zTimeoutQNextExpiry s ≤ zTimeoutQNextExpiry s') :
    zTimeoutQNextExpiry s ≤ zTimeoutQNextExpiry s' := by
  obtain ⟨hle, hgt, -, hmin⟩ := h.firstIndex_spec
  obtain ⟨hle', hgt', hocc', -⟩ := h'.firstIndex_spec
  rw [hidx] at hgt'
  have hcase : firstIndex s ≤ firstIndex s' ∨ zTimeoutQNextExpiry s ≤ zTimeoutQNextExpiry s' := by
    rcases hocc' with h31 | hne
    · exact .inl (by omega)
    · exact (hocc _ hne rfl).imp_left fun hne => hmin _ hne (by omega)
  rcases hcase with hcase | hcase
  · rw [h.nextExpiry_eq, h'.nextExpiry_eq, hidx]
    split <;> omega
  · exact hcase

end NextExpiry

/-- No timeout is added a whole rotation ahead, except from the last slot. -/
def Action.clear (cfg : Config) (k : Kernel (queue τ)) (a : Action τ) : Prop :=
  ∀ cpu t ticks sysElapsed, a = .add cpu t ticks sysElapsed → ticks ≠ ticksForever →
    1 ≤ addDticks cfg k cpu ticks sysElapsed ∧
      (addDticks cfg k cpu ticks sysElapsed = 32 → k.queue.soonIndex = 31)

instance Action.decidableClear (cfg : Config) (k : Kernel (queue τ)) (a : Action τ) :
    Decidable (Action.clear cfg k a) :=
  match a with
  | .add cpu t ticks sysElapsed =>
    decidable_of_iff (ticks ≠ ticksForever → 1 ≤ addDticks cfg k cpu ticks sysElapsed ∧
        (addDticks cfg k cpu ticks sysElapsed = 32 → k.queue.soonIndex = 31))
      ⟨by rintro h _ _ _ _ ⟨⟩; exact h, fun h => h _ _ _ _ rfl⟩
  | .abort .. | .announce .. | .loop | .handlerReturn => isTrue (by rintro _ _ _ _ ⟨⟩)

section Runs

variable {k k' : Kernel (queue τ)} {a : Action τ} {es es' : List (Event τ)}

theorem Sound.ready (h : Sound k) (hc : Clear k.queue) (hidle : k.phase = .idle) :
    Ready k.queue :=
  ⟨h.wf, h.rests, h.announcing.trans (by rw [hidle]; rfl), hc⟩

theorem wakes (τ : Type) [DecidableEq τ] : Wakes (queue τ) (fun s _ => Ready s)
    (fun s _ d => 1 ≤ d ∧ d ≤ int64Max ∧ (d = 32 → s.soonIndex = 31)) where
  next h := .inr h.nextExpiry_pos
  insert {s c t d s'} h hin had hins := by
    have ht := h.wf.inactive_iff.1 hin
    obtain ⟨h1, hm, h32⟩ := had
    have h' := h.insert ht h1 hm h32 hins
    have hidx := (h.wf.inserts ht hins).indices.soonIndex
    have hpos := h.nextExpiry_pos
    have hge : zTimeoutQNextExpiry s ≤ d := by
      by_contra hlt
      exact absurd (h.insert_first ht h1 (by omega) hins) nofun
    refine ⟨by simp only [ticksForever]; omega, h.nextExpiry_mono h' hidx fun i hne hi => ?_⟩
    rcases h.insert_soon ht hins i with heq | ⟨hd, heq⟩
    · exact .inl (heq ▸ hne)
    · -- the new timeout is the first, and it is `d` ticks away
      obtain ⟨-, hgt', -⟩ := h'.firstIndex_spec
      rw [h'.nextExpiry_eq]
      split <;> omega
  remove {s c t} h hin _ := by
    have ht := h.wf.active_iff.1 hin
    have hpos := h.nextExpiry_pos
    have hu := unlinks_remove s t
    refine .inr ⟨by simp only [ticksForever]; omega,
      h.nextExpiry_mono (h.remove ht) hu.indices.soonIndex fun i hne _ => .inl ?_⟩
    change (timeoutWheelRemoveTimeout s t).lists (.soon i) ≠ [] at hne
    rw [hu.lists] at hne
    intro h0
    simp [h0] at hne

theorem Clear.loop (cfg : Config) (hs : Sound k) (h : Clear k.queue) (hl : k.lockFree = false) :
    Clear (zTimeoutQAnnounce cfg k).queue := by
  obtain ⟨n, hp, -, q, phase, rem, hq, -, -, heq⟩ | ⟨-, -, heq⟩ | ⟨n, t, hp, ht, heq⟩ |
    ⟨n, hp, hnil, heq⟩ := announce_cases cfg hs hl
  · rw [heq]
    exact h.passes hs.wf (hs.top hp) hq
  · rwa [heq, (announceEnd_clock cfg k).1]
  · rw [heq]
    exact h.pop hs.wf (hs.drained hp).1 ht
  · rw [heq]
    exact h.announceNowEnd hs.wf hnil (hs.drained hp).1 (hs.drained hp).2

theorem Clear.step (hs : Sound k) (h : Clear k.queue) (ha : Action.clear cfg k a)
    (hstep : Timeout.step (backend τ) cfg k a = some (k', es')) : Clear k'.queue := by
  cases a with
  | add cpu t ticks sysElapsed =>
    obtain ⟨-, hin, -, -, hcase⟩ := step_add hstep
    have hnot := hs.wf.inactive_iff.1 hin
    obtain ⟨-, rfl, -⟩ | ⟨hne, -⟩ := hcase
    · exact h
    obtain ⟨rfl, -⟩ | ⟨-, first, hins, rfl, -⟩ := step_add_queue hstep
    · exact h
    · obtain ⟨h1, h32⟩ := ha cpu t ticks sysElapsed rfl hne
      exact h.insert hs.wf hs.rests hnot h1 h32 hins
  | abort cpu t sysElapsed =>
    obtain ⟨-, ⟨-, -, hq⟩ | ⟨hin, -, hq⟩⟩ := step_abort_queue hstep
    · exact hq ▸ h
    · rw [hq]
      exact h.remove hs.wf (hs.wf.active_iff.1 hin)
  | announce cpu ticks =>
    obtain ⟨-, -, -, ⟨-, -, rfl⟩ | ⟨-, rfl⟩⟩ := step_announce hstep <;> exact h
  | loop =>
    obtain ⟨hl, rfl, -⟩ := step_loop hstep
    exact h.loop cfg hs hl
  | handlerReturn =>
    obtain ⟨-, -, rfl, -⟩ := step_return hstep
    exact h

theorem clear_boot : Clear (Kernel.boot (queue τ)).queue where
  bits i := by simp [Kernel.boot, timeoutWheelInit]
  current _ _ := rfl
  deferred _ _ := rfl

theorem timely (h : Reaches (system (backend τ) cfg) (Action.clear cfg) es k)
    (hidle : k.phase = .idle) :
    Timely (backend τ) (fun s _ d => 1 ≤ d ∧ d < zTimeoutQNextExpiry s) k := by
  obtain ⟨hs, hc, harm⟩ : Sound k ∧ Clear k.queue ∧ (k.phase = .idle → Armed k) := by
    refine Run.invariant (I := fun _ k => Sound k ∧ Clear k.queue ∧ (k.phase = .idle → Armed k))
      ⟨sound_boot, clear_boot, fun _ => by rintro - - ⟨⟩⟩ ?_ h
    rintro - k a k' es' ⟨hs, hc, harm⟩ ha hstep
    have hs' := hs.step hstep
    have hc' := hc.step hs ha hstep
    refine ⟨hs', hc', (wakes τ).step (B := backend τ) hs.cpu (hs.ready hc) (hs'.ready hc') ?_ ?_ harm hstep⟩
    · intro (hi : (zTimeoutQAnnounce cfg k).phase = .idle) hl
      obtain ⟨n, -, -, q, phase, rem, -, -, hcase, heq⟩ | ⟨-, -, heq⟩ | ⟨n, t, -, -, heq⟩ |
        ⟨n, -, -, heq⟩ := announce_cases cfg hs hl
      · rw [heq] at hi
        rcases hcase with ⟨rfl, -⟩ | ⟨rfl, -⟩ <;> simp at hi
      · exact heq
      · simp [heq] at hi
      · simp [heq] at hi
    · rintro cpu t ticks sysElapsed rfl - hne
      obtain ⟨h1, h32⟩ := ha cpu t ticks sysElapsed rfl hne
      exact ⟨h1, addDticks_le .., h32⟩
  have hr := hs.ready hc hidle
  refine ⟨fun t hin => hr.nextExpiry_le (hs.wf.active_iff.1 hin), fun t d s' b hin hlow hins =>
    hr.insert_first (hs.wf.inactive_iff.1 hin) hlow.1 hlow.2 hins, fun t ticks now hin hdrv => ?_⟩
  have hle := hr.nextExpiry_le (hs.wf.active_iff.1 hin)
  have hpos := hr.nextExpiry_pos
  refine (harm hidle ticks now hdrv).imp_right fun hwait => ?_
  rcases hwait with hnone | hwait
  · simp only [ticksForever] at hnone
    omega
  · change (now + ticks : ℤ) ≤ k.currTick + zTimeoutQNextExpiry k.queue at hwait
    change (now + ticks : ℤ) ≤ k.currTick + timeoutWheelRemainder k.queue t
    omega

end Runs

end Wheel

end ZephyrRtos.Timeout
