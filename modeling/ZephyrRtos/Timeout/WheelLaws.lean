import ZephyrRtos.Timeout.Wheel

/-! What every reachable wheel looks like: each timeout is on one list, and its flags
and `dticks` say which. -/

namespace ZephyrRtos.Timeout.Wheel

open List Function Lib

variable {τ : Type} [DecidableEq τ]

def Fits (s : State τ) : Slot → τ → Prop
  | .soon i, t => i < 32 ∧ s.flagSoon t = true ∧ s.dticks t = i
  | .soonDefer, t => s.announcing = 1 ∧ s.flagSoon t = true ∧ s.dticks t = s.soonIndex + 32
  | .later j, t => j < 32 ∧ s.flagSoon t = false ∧ s.flagLater t = true ∧
      32 * (j : ℤ) ≤ s.dticks t ∧ s.dticks t < 32 * j + 32
  | .distant, t => s.flagSoon t = false ∧ s.flagLater t = false ∧ 0 ≤ s.dticks t

structure Wf (s : State τ) : Prop where
  soonIndex : s.soonIndex < 32
  laterIndex : s.laterIndex < 32
  announcing : s.announcing ≤ 1
  fits : ∀ x t, t ∈ s.lists x → Fits s x t
  nodup : ∀ x, (s.lists x).Nodup
  unlinked : ∀ t, (∀ x, t ∉ s.lists x) → s.flagSoon t = false ∧ s.flagLater t = false
  bits : ∀ i, s.lists (.soon i) ≠ [] →
    s.soonBits.getLsbD i = true ∨ i = s.soonIndex ∧ s.announcing = 1
  bound : ∀ x ∈ deltaKeys s.dticks (cutoff s) (s.lists .distant), x.2 ≤ int64Max

/-- The wheel has been sifted exactly while it rests at the end of a rotation. -/
def Rests (s : State τ) : Prop :=
  s.sifted ≤ 1 ∧ (s.sifted = 1 ↔ s.soonIndex = 31 ∧ s.announcing = 0)

structure SameIndices (s s' : State τ) : Prop where
  soonIndex : s'.soonIndex = s.soonIndex
  laterIndex : s'.laterIndex = s.laterIndex
  announcing : s'.announcing = s.announcing
  sifted : s'.sifted = s.sifted

structure SameFields (s s' : State τ) (u : τ) : Prop where
  dticks : s'.dticks u = s.dticks u
  flagSoon : s'.flagSoon u = s.flagSoon u
  flagLater : s'.flagLater u = s.flagLater u

section Basic

omit [DecidableEq τ]

theorem SameIndices.cutoff (h : SameIndices s s') : cutoff s' = cutoff s := by
  simp [Wheel.cutoff, h.sifted, h.soonIndex]

theorem Fits.congr (hf : Fits s x u) (hi : SameIndices s s') (hu : SameFields s s' u) :
    Fits s' x u := by
  cases x <;> simpa [Fits, hi.announcing, hi.soonIndex, hu.dticks, hu.flagSoon, hu.flagLater]

theorem Fits.unique (hx : Fits s x t) (hy : Fits s y t) : x = y := by
  cases x <;> cases y <;> simp only [Fits] at hx hy <;>
    first
    | rfl
    | (congr 1; omega)
    | simp_all

theorem Wf.slot_unique (h : Wf s) (hx : t ∈ s.lists x) (hy : t ∈ s.lists y) : x = y :=
  Fits.unique (h.fits _ _ hx) (h.fits _ _ hy)

theorem Wf.distant_nonneg (h : Wf s) : ∀ u ∈ s.lists .distant, 0 ≤ s.dticks u :=
  fun u hu => (h.fits _ u hu).2.2

theorem Wf.unflagged (h : Wf s) (hu : u ∈ s.lists .distant) :
    s.flagSoon u = false ∧ s.flagLater u = false :=
  ⟨(h.fits _ u hu).1, (h.fits _ u hu).2.1⟩

theorem Wf.slot_mem_all (h : Wf s) (hx : t ∈ s.lists x) : x ∈ Slot.all := by
  have hf := h.fits _ _ hx
  cases x <;> simp_all [Slot.all, Fits]

theorem Wf.soonDefer_nil (h : Wf s) (ha : s.announcing = 0) : s.lists .soonDefer = [] := by
  refine eq_nil_iff_forall_not_mem.2 fun t ht => ?_
  have := (h.fits _ _ ht).1
  omega

theorem Wf.cutoff_nonneg (h : Wf s) : 0 ≤ Wheel.cutoff s := by
  have := h.soonIndex
  simp only [Wheel.cutoff]
  omega

end Basic

section Move

variable {t : τ}

theorem Wf.bits_of_erase (hw : Wf s) (h : (s.lists (.soon i)).erase t ≠ []) :
    s.soonBits.getLsbD i = true ∨ i = s.soonIndex ∧ s.announcing = 1 := by
  refine hw.bits i fun h0 => ?_
  simp [h0] at h

theorem Wf.move (hw : Wf s) (hi : SameIndices s s') (hf : ∀ u, u ≠ t → SameFields s s' u)
    (hmem : ∀ u, u ≠ t → ∀ y, u ∈ s'.lists y ↔ u ∈ s.lists y)
    (hfits : ∀ y, t ∈ s'.lists y → Fits s' y t) (hnodup : ∀ y, (s'.lists y).Nodup)
    (hflags : (∀ y, t ∉ s'.lists y) → s'.flagSoon t = false ∧ s'.flagLater t = false)
    (hbits : ∀ i, s'.lists (.soon i) ≠ [] →
      s'.soonBits.getLsbD i = true ∨ i = s.soonIndex ∧ s.announcing = 1)
    (hdist : s'.lists .distant = (s.lists .distant).erase t) : Wf s' where
  soonIndex := hi.soonIndex ▸ hw.soonIndex
  laterIndex := hi.laterIndex ▸ hw.laterIndex
  announcing := hi.announcing ▸ hw.announcing
  fits y u hu := by
    obtain rfl | hut := eq_or_ne u t
    · exact hfits y hu
    · exact (hw.fits y u ((hmem u hut y).1 hu)).congr hi (hf u hut)
  nodup := hnodup
  unlinked u hu := by
    obtain rfl | hut := eq_or_ne u t
    · exact hflags hu
    · rw [(hf u hut).flagSoon, (hf u hut).flagLater]
      exact hw.unlinked u fun y hy => hu y ((hmem u hut y).2 hy)
  bits i hne := by
    rw [hi.soonIndex, hi.announcing]
    exact hbits i hne
  bound y hy := by
    have hkeys : deltaKeys s'.dticks (cutoff s') (s'.lists .distant) =
        deltaKeys s.dticks (cutoff s) ((s.lists .distant).erase t) := by
      rw [hdist, hi.cutoff]
      refine deltaKeys_congr fun u hu => (hf u ?_).dticks
      rintro rfl
      exact (hw.nodup _).not_mem_erase hu
    rw [hkeys] at hy
    obtain ⟨z, hz, hle⟩ := deltaKeys_sublist_le erase_sublist hw.distant_nonneg le_rfl y hy
    exact hle.trans (hw.bound z hz)

end Move

section Relink

variable {s s' : State τ} {t : τ} {x : Slot}

/-- A timeout leaves its list, if it was on one, and joins list `x`. -/
structure Relinks (s s' : State τ) (t : τ) (x : Slot) : Prop where
  others : ∀ y, y ≠ x → s'.lists y = (s.lists y).erase t
  joins : (s'.lists x).Perm (t :: (s.lists x).erase t)
  fields : ∀ u, u ≠ t → SameFields s s' u
  indices : SameIndices s s'
  bits : ∀ i, s.soonBits.getLsbD i = true → s'.soonBits.getLsbD i = true

theorem Relinks.mem (h : Relinks s s' t x) (hu : u ≠ t) : u ∈ s'.lists y ↔ u ∈ s.lists y := by
  by_cases hy : y = x
  · subst hy
    rw [h.joins.mem_iff]
    simp [hu]
  · rw [h.others y hy, mem_erase_of_ne hu]

theorem Relinks.mem_self (h : Relinks s s' t x) (hw : Wf s) : t ∈ s'.lists y ↔ y = x := by
  by_cases hy : y = x
  · subst hy
    simp [h.joins.mem_iff]
  · rw [h.others y hy]
    simp [hy, (hw.nodup y).not_mem_erase]

theorem Relinks.wf (h : Relinks s s' t x) (hw : Wf s) (hx : x ≠ .distant) (hf : Fits s' x t)
    (hbit : ∀ i, x = .soon i → s'.soonBits.getLsbD i = true ∨ i = s.soonIndex ∧ s.announcing = 1) :
    Wf s' := by
  refine hw.move h.indices h.fields (fun u hu y => h.mem hu) (fun y hy => ?_) (fun y => ?_)
    (fun hu => absurd ((h.mem_self hw).2 rfl) (hu x)) (fun i hi => ?_) (h.others _ hx.symm)
  · rwa [(h.mem_self hw).1 hy]
  · by_cases hy : y = x
    · subst hy
      rw [h.joins.nodup_iff, nodup_cons]
      exact ⟨(hw.nodup y).not_mem_erase, (hw.nodup y).erase t⟩
    · rw [h.others y hy]
      exact (hw.nodup y).erase t
  · by_cases hy : (.soon i : Slot) = x
    · exact hbit i hy.symm
    · rw [h.others _ hy] at hi
      exact (hw.bits_of_erase hi).imp_left (h.bits i)

end Relink

section Unlink

variable {s s' : State τ} {t : τ}

structure Unlinks (s s' : State τ) (t : τ) : Prop where
  lists : ∀ y, s'.lists y = (s.lists y).erase t
  flags : s'.flagSoon t = false ∧ s'.flagLater t = false
  fields : ∀ u, u ≠ t → SameFields s s' u
  indices : SameIndices s s'
  bits : ∀ i, (s.lists (.soon i)).erase t ≠ [] → s.soonBits.getLsbD i = true →
    s'.soonBits.getLsbD i = true

theorem Unlinks.mem (h : Unlinks s s' t) (hu : u ≠ t) : u ∈ s'.lists y ↔ u ∈ s.lists y := by
  rw [h.lists y, mem_erase_of_ne hu]

theorem Unlinks.notMem (h : Unlinks s s' t) (hw : Wf s) (y : Slot) : t ∉ s'.lists y := by
  rw [h.lists y]
  exact (hw.nodup y).not_mem_erase

theorem Unlinks.wf (h : Unlinks s s' t) (hw : Wf s) : Wf s' := by
  refine hw.move h.indices h.fields (fun u hu y => h.mem hu)
    (fun y hy => absurd hy (h.notMem hw y)) (fun y => ?_) (fun _ => h.flags) (fun i hi => ?_)
    (h.lists _)
  · rw [h.lists y]
    exact (hw.nodup y).erase t
  · rw [h.lists] at hi
    exact (hw.bits_of_erase hi).imp_left (h.bits i hi)

theorem unlinks_pop (s : State τ) (t : τ) :
    Unlinks s (timeoutWheelClearFlags (sysDlistRemove s t) t) t where
  lists _ := rfl
  flags := by simp [timeoutWheelClearFlags]
  fields u hu := ⟨rfl, by simp [timeoutWheelClearFlags, sysDlistRemove, hu],
    by simp [timeoutWheelClearFlags, sysDlistRemove, hu]⟩
  indices := ⟨rfl, rfl, rfl, rfl⟩
  bits _ _ h := h

theorem unlinks_remove (s : State τ) (t : τ) : Unlinks s (timeoutWheelRemoveTimeout s t) t where
  lists y := by
    simp only [timeoutWheelRemoveTimeout]
    split <;> rfl
  flags := by simp [timeoutWheelRemoveTimeout, timeoutWheelClearFlags]
  fields u hu := by
    simp only [timeoutWheelRemoveTimeout]
    split <;> exact ⟨rfl, by simp [timeoutWheelClearFlags, sysDlistRemove, hu],
      by simp [timeoutWheelClearFlags, sysDlistRemove, hu]⟩
  indices := by
    simp only [timeoutWheelRemoveTimeout]
    split <;> exact ⟨rfl, rfl, rfl, rfl⟩
  bits i hi hb := by
    simp only [timeoutWheelRemoveTimeout]
    split
    · next hc =>
      -- the cleared bit is that of a slot the removal left empty
      have hne : i ≠ uint32 (s.dticks t) := by
        rintro rfl
        exact hi hc.2.2
      simp only [timeoutWheelClearFlags]
      rw [getLsbD_and_not_bit _ hc.2.1, hb]
      simpa using hne
    · exact hb

end Unlink

section Insert

variable {t : τ}

theorem relinks_append (ht : ∀ y, t ∉ s.lists y) (hl : s₁.lists = s.lists)
    (hf : ∀ u, u ≠ t → SameFields s s₁ u) (hi : SameIndices s s₁)
    (hb : ∀ i, s.soonBits.getLsbD i = true → s₁.soonBits.getLsbD i = true) :
    Relinks s (sysDlistAppend s₁ x t) t x where
  others y hy := by simp [sysDlistAppend, hy, hl, erase_of_not_mem (ht y)]
  joins := by
    simp only [sysDlistAppend, update_self, hl, erase_of_not_mem (ht x)]
    exact perm_append_singleton _ _
  fields u hu := ⟨(hf u hu).dticks, (hf u hu).flagSoon, (hf u hu).flagLater⟩
  indices := ⟨hi.soonIndex, hi.laterIndex, hi.announcing, hi.sifted⟩
  bits := hb

theorem relinks_soon (ht : ∀ y, t ∉ s.lists y) (d : ℤ) :
    Relinks s (timeoutWheelAppendSoon { s with dticks := update s.dticks t d } t) t
      (.soon ((d + s.soonIndex) % 32).toNat) := by
  simp only [timeoutWheelAppendSoon, update_self]
  refine relinks_append ht rfl (fun u hu => ⟨by simp [hu], by simp [hu], rfl⟩) ⟨rfl, rfl, rfl, rfl⟩
    fun i hi => ?_
  rw [getLsbD_or_bit _ (by omega), hi, Bool.true_or]

theorem relinks_defer (ht : ∀ y, t ∉ s.lists y) (d : ℤ) :
    Relinks s (timeoutWheelAppendSoonDefer { s with dticks := update s.dticks t d } t) t
      .soonDefer :=
  relinks_append ht rfl (fun u hu => ⟨by simp [hu], by simp [hu], rfl⟩) ⟨rfl, rfl, rfl, rfl⟩
    fun _ hi => hi

theorem relinks_later (ht : ∀ y, t ∉ s.lists y) (d : ℤ) :
    Relinks s (timeoutWheelAppendLater { s with dticks := update s.dticks t d } t) t
      (.later (laterBand s (uint32 (d + s.soonIndex - 32)))) := by
  simp only [timeoutWheelAppendLater, update_self]
  exact relinks_append ht rfl (fun u hu => ⟨by simp [hu], rfl, by simp [hu]⟩) ⟨rfl, rfl, rfl, rfl⟩
    fun _ hi => hi

theorem wf_soon (h : Wf s) (ht : ∀ y, t ∉ s.lists y) (d : ℤ) :
    Wf (timeoutWheelAppendSoon { s with dticks := update s.dticks t d } t) := by
  refine (relinks_soon ht d).wf h nofun ?_ ?_
  · refine ⟨by omega, ?_, ?_⟩ <;> simp [timeoutWheelAppendSoon, sysDlistAppend]
  · rintro - ⟨⟩
    simp only [timeoutWheelAppendSoon, sysDlistAppend]
    rw [getLsbD_or_bit _ (by omega)]
    simp

theorem wf_defer (h : Wf s) (ht : ∀ y, t ∉ s.lists y) (ha : s.announcing = 1) :
    Wf (timeoutWheelAppendSoonDefer { s with dticks := update s.dticks t 32 } t) := by
  have hk := h.soonIndex
  refine (relinks_defer ht 32).wf h nofun ⟨ha, ?_, ?_⟩ nofun
  · simp [timeoutWheelAppendSoonDefer, sysDlistAppend]
  · simp only [timeoutWheelAppendSoonDefer, sysDlistAppend, update_self]
    omega

theorem wf_later (h : Wf s) (ht : ∀ y, t ∉ s.lists y) (d : ℤ) :
    Wf (timeoutWheelAppendLater { s with dticks := update s.dticks t d } t) := by
  refine (relinks_later ht d).wf h nofun ⟨?_, ?_, ?_, ?_⟩ nofun
  · simp only [laterBand]
    omega
  · exact (h.unlinked t ht).1
  · simp [timeoutWheelAppendLater, sysDlistAppend]
  · simp only [timeoutWheelAppendLater, sysDlistAppend, update_self, laterBand]
    omega

theorem Wf.distant_le (h : Wf s) :
    ∀ u ∈ s.lists .distant, 0 ≤ s.dticks u ∧ s.dticks u ≤ int64Max := by
  have hc := h.cutoff_nonneg
  intro u hu
  have hu' : u ∈ (deltaKeys s.dticks (cutoff s) (s.lists .distant)).map Prod.fst := by
    simpa using hu
  obtain ⟨⟨u, e⟩, hx, rfl⟩ := mem_map.1 hu'
  have h1 := delta_le_of_mem h.distant_nonneg hx
  have h2 := h.bound _ hx
  refine ⟨h.distant_nonneg u hu, ?_⟩
  simp only at h1 h2 ⊢
  omega

theorem wf_insertDistant (h : Wf s) (ht : ∀ y, t ∉ s.lists y) (hd : cutoff s < d)
    (hm : d ≤ int64Max) :
    Wf (timeoutWheelInsertDistant { s with dticks := update s.dticks t d } t) := by
  have hc := h.cutoff_nonneg
  set δ := update s.dticks t d with hδ
  have hsame : ∀ u ∈ s.lists .distant, δ u = s.dticks u := by
    intro u hu
    refine update_of_ne ?_ _ _
    rintro rfl
    exact ht _ hu
  have hle : ∀ u ∈ s.lists .distant, 0 ≤ δ u ∧ δ u ≤ int64Max := by
    intro u hu
    rw [hsame u hu]
    exact h.distant_le u hu
  have hnn := deltaInsert_nonneg hle (h.nodup _) (ht _) (d := d - cutoff s) (by omega) (by omega)
  have hkeys := deltaKeys_insert (c := cutoff s) hle (h.nodup _) (ht _) (d := d - cutoff s)
    (by omega) (by omega)
  have hperm := deltaInsert_perm t (s.lists .distant) δ (d - cutoff s)
  have hδt : δ t = d := by simp [hδ]
  have heq : timeoutWheelInsertDistant { s with dticks := δ } t = { s with
      lists := update s.lists .distant (deltaInsert t (s.lists .distant) δ (d - cutoff s)).1
      dticks := (deltaInsert t (s.lists .distant) δ (d - cutoff s)).2 } := by
    simp only [timeoutWheelInsertDistant, hδt]
    rfl
  rw [heq]
  -- off the distant list nobody's `dticks` changes but that of `t`
  have hother : ∀ y, y ≠ .distant → ∀ u ∈ s.lists y,
      (deltaInsert t (s.lists .distant) δ (d - cutoff s)).2 u = s.dticks u := by
    intro y hy u hu
    have hut : u ≠ t := by
      rintro rfl
      exact ht y hu
    rw [deltaInsert_of_notMem hut fun hm' => hy (h.slot_unique hu hm')]
    exact update_of_ne hut _ _
  exact {
    soonIndex := h.soonIndex
    laterIndex := h.laterIndex
    announcing := h.announcing
    fits y u hu := by
      by_cases hy : y = .distant
      · subst hy
        have hmem := hperm.mem_iff.1 hu
        obtain ⟨hsoon, hlater⟩ : s.flagSoon u = false ∧ s.flagLater u = false := by
          rcases mem_cons.1 hmem with rfl | hold
          · exact h.unlinked _ ht
          · exact h.unflagged hold
        exact ⟨hsoon, hlater, hnn u hmem⟩
      · simp only [update_of_ne hy] at hu
        have hf := h.fits y u hu
        refine hf.congr ⟨rfl, rfl, rfl, rfl⟩ ⟨?_, rfl, rfl⟩
        exact hother y hy u hu
    nodup y := by
      by_cases hy : y = .distant
      · subst hy
        exact hperm.nodup_iff.2 (nodup_cons.2 ⟨ht _, h.nodup _⟩)
      · simpa [hy] using h.nodup y
    unlinked u hu := by
      refine h.unlinked u fun y hy => hu y ?_
      by_cases hyd : y = .distant
      · subst hyd
        exact hperm.mem_iff.2 (mem_cons_of_mem _ hy)
      · simpa [hyd] using hy
    bits i hi := by
      exact h.bits i (by simpa using hi)
    bound := by
      have hcut : cutoff s + (d - cutoff s) = d := by omega
      intro x hx
      change x ∈ deltaKeys _ (cutoff s) _ at hx
      simp only [update_self] at hx
      rw [hkeys, hcut, mem_insertStable, deltaKeys_congr hsame] at hx
      rcases hx with rfl | hx
      · exact hm
      · exact h.bound x hx }

theorem insert_cases (hins : zTimeoutQInsert s t d = some (s', b)) :
    d ≠ 0 ∧ b = decide (timeoutWheelFirst s' = some t) ∧
      let s₁ := { s with dticks := update s.dticks t d }
      ((d ≤ 32 - s.announcing ∧ s' = timeoutWheelAppendSoon s₁ t) ∨
        (d = 32 ∧ ¬ d ≤ 32 - s.announcing ∧ s' = timeoutWheelAppendSoonDefer s₁ t) ∨
        (¬ d ≤ 32 - s.announcing ∧ d ≠ 32 ∧ d ≤ cutoff s ∧ s' = timeoutWheelAppendLater s₁ t) ∨
        (¬ d ≤ 32 - s.announcing ∧ d ≠ 32 ∧ cutoff s < d ∧
          s' = timeoutWheelInsertDistant s₁ t)) := by
  simp only [zTimeoutQInsert, timeoutWheelAddTimeout, update_self, Option.map_eq_some_iff] at hins
  obtain ⟨s₂, hadd, rfl, rfl⟩ := hins
  have hcut : cutoff { s with dticks := update s.dticks t d } = cutoff s := rfl
  split at hadd
  · simp at hadd
  next h0 =>
  refine ⟨h0, rfl, ?_⟩
  split at hadd
  · next h1 => exact .inl ⟨h1, (Option.some.inj hadd).symm⟩
  next h1 =>
  split at hadd
  · next h2 => exact .inr (.inl ⟨h2, h1, (Option.some.inj hadd).symm⟩)
  next h2 =>
  split at hadd
  · next h3 => exact .inr (.inr (.inl ⟨h1, h2, h3, (Option.some.inj hadd).symm⟩))
  · next h3 => exact .inr (.inr (.inr ⟨h1, h2, by omega, (Option.some.inj hadd).symm⟩))

theorem Wf.insert (h : Wf s) (ht : ∀ y, t ∉ s.lists y) (hm : d ≤ int64Max)
    (hins : zTimeoutQInsert s t d = some (s', b)) : Wf s' := by
  obtain ⟨-, -, ⟨-, rfl⟩ | ⟨rfl, ha, rfl⟩ | ⟨-, -, -, rfl⟩ | ⟨-, -, hc, rfl⟩⟩ := insert_cases hins
  · exact wf_soon h ht d
  · have := h.announcing
    exact wf_defer h ht (by omega)
  · exact wf_later h ht d
  · exact wf_insertDistant h ht hc hm

end Insert

section Remainder

variable {t : τ}

theorem uint32_natCast {n : ℕ} (h : n < 2 ^ 32) : uint32 n = n := by
  have := uint32_eq (x := n)
  omega

theorem remainder_soon (h : Wf s) {i : ℕ} (ht : t ∈ s.lists (.soon i)) :
    timeoutWheelRemainder s t =
      if i = s.soonIndex then (1 - (s.announcing : ℤ)) * 32 else ((i : ℤ) - s.soonIndex) % 32 := by
  obtain ⟨hi, hflag, hdt⟩ := h.fits _ _ ht
  simp [timeoutWheelRemainder, hflag, hdt, uint32_natCast (show i < 2 ^ 32 by omega), if_neg (show ¬32 ≤ i by omega)]

theorem remainder_soonDefer (h : Wf s) (ht : t ∈ s.lists .soonDefer) :
    timeoutWheelRemainder s t = 32 := by
  obtain ⟨-, hflag, hdt⟩ := h.fits _ _ ht
  have hk := h.soonIndex
  have hidx : uint32 (s.soonIndex + 32 : ℤ) = s.soonIndex + 32 := by
    exact_mod_cast uint32_natCast (by omega)
  simp only [timeoutWheelRemainder, hflag, if_true, hdt]
  rw [if_neg (by omega), if_pos (by omega)]

theorem remainder_later (h : Wf s) (ht : t ∈ s.lists (.later j)) :
    timeoutWheelRemainder s t =
      32 - s.soonIndex + (((j : ℤ) - s.laterIndex) % 32 + s.sifted) * 32 + s.dticks t % 32 := by
  obtain ⟨-, hsoon, hlater, hlo, hhi⟩ := h.fits _ _ ht
  have hj : s.dticks t / 32 = j := by omega
  simp [timeoutWheelRemainder, hsoon, hlater, hj]

theorem remainder_distant (h : Wf s)
    (ht : (t, e) ∈ deltaKeys s.dticks (cutoff s) (s.lists .distant)) :
    timeoutWheelRemainder s t = e := by
  have hmem : t ∈ s.lists .distant := by
    simpa using mem_map_of_mem (f := Prod.fst) ht
  obtain ⟨hsoon, hlater, -⟩ := h.fits _ _ hmem
  have hc := h.cutoff_nonneg
  have hsum : deltaSum s.dticks t (cutoff s) (s.lists .distant) = e - 0 :=
    deltaSum_eq h.distant_nonneg hc (by simpa using h.bound) (h.nodup _) (by simpa using ht)
  simp [timeoutWheelRemainder, hsoon, hlater, hsum]

theorem remainder_congr (hn : s.flagSoon t = true ∨ s.flagLater t = true)
    (hu : SameFields s s' t) (hi : SameIndices s s') :
    timeoutWheelRemainder s' t = timeoutWheelRemainder s t := by
  simp only [timeoutWheelRemainder, hu.flagSoon, hu.flagLater, hu.dticks, hi.soonIndex,
    hi.announcing, hi.laterIndex, hi.sifted]
  rcases hn with hn | hn <;> simp [hn]

theorem Wf.flagged (h : Wf s) (hx : x ≠ .distant) (ht : t ∈ s.lists x) :
    s.flagSoon t = true ∨ s.flagLater t = true := by
  have hf := h.fits _ _ ht
  cases x with
  | soon i => exact .inl hf.2.1
  | soonDefer => exact .inl hf.2.1
  | later j => exact .inr hf.2.2.1
  | distant => exact absurd rfl hx

end Remainder

section Advance

variable {s s' : State τ}

section

omit [DecidableEq τ]

theorem numTicks_spec (hk : s.soonIndex < 32) : ∃ next ≤ 31,
    (s.soonIndex < 31 ∧ s.soonIndex < next ∧ numTicksToAdvance s = next - s.soonIndex ∨
      s.soonIndex = 31 ∧ numTicksToAdvance s = next + 1) ∧
    ∀ i, s.soonBits.getLsbD i = true → (s.soonIndex + 1) % 32 ≤ i → next ≤ i := by
  set b := bitsFrom (s.soonBits ||| bit 32 31) ((s.soonIndex + 1) % 32) with hb
  have hbit : ∀ i, b.getLsbD i = ((s.soonBits.getLsbD i || decide (i = 31)) &&
      decide ((s.soonIndex + 1) % 32 ≤ i)) := by
    intro i
    rw [getLsbD_bitsFrom, getLsbD_or_bit _ (by omega)]
  have h31 : b.getLsbD 31 = true := by
    rw [hbit]
    simp only [decide_true, Bool.or_true, Bool.true_and, decide_eq_true_eq]
    omega
  have hle := ctz_le h31
  have hmin := getLsbD_ctz (ne_zero_of_getLsbD h31)
  rw [hbit, Bool.and_eq_true, decide_eq_true_eq] at hmin
  refine ⟨countTrailingZeros b, hle, ?_, fun i hi hge => ctz_le ?_⟩
  · simp only [numTicksToAdvance, ← hb]
    omega
  · rw [hbit, hi]
    simpa using hge

end

theorem numTicks_le (h : Wf s) (ha : s.announcing = 0) (ht : t ∈ s.lists (.soon i)) :
    (numTicksToAdvance s : ℤ) ≤ timeoutWheelRemainder s t := by
  have hk := h.soonIndex
  have hi := (h.fits _ _ ht).1
  obtain ⟨next, h31, hcase, hmin⟩ := numTicks_spec hk
  have hbit : s.soonBits.getLsbD i = true := by
    rcases h.bits i (ne_nil_of_mem ht) with hb | hb
    · exact hb
    · omega
  have hnext := hmin i hbit
  rw [remainder_soon h ht]
  split <;> omega

/-- `n` ticks pass, and none of them needs processing before the last. -/
structure Passes (s s' : State τ) (n : ℕ) : Prop where
  lists : s'.lists = s.lists
  dticks : s'.dticks = s.dticks
  flagSoon : s'.flagSoon = s.flagSoon
  flagLater : s'.flagLater = s.flagLater
  soonIndex : s'.soonIndex = (s.soonIndex + n) % 32
  laterIndex : s'.laterIndex = s.laterIndex
  sifted : s'.sifted = 0
  bits : ∀ i, s'.soonBits.getLsbD i = true ↔
    s.soonBits.getLsbD i = true ∧ ¬(s'.announcing = 1 ∧ i = s'.soonIndex)
  ticks : (0 < n ∧ n < numTicksToAdvance s ∧ s'.announcing = 0) ∨
    (n = numTicksToAdvance s ∧ s'.announcing = 1)

section

omit [DecidableEq τ]

theorem passes_land (s : State τ) : Passes s (land s (numTicksToAdvance s)) (numTicksToAdvance s) := by
  refine ⟨rfl, rfl, rfl, rfl, rfl, rfl, rfl, fun i => ?_, .inr ⟨rfl, rfl⟩⟩
  simp only [land]
  rw [getLsbD_and_not_bit _ (by omega)]
  simp

theorem Passes.ticks_le (h : Passes s s' n) (hk : s.soonIndex < 32) :
    0 < n ∧ n ≤ numTicksToAdvance s ∧ s'.announcing ≤ 1 := by
  obtain ⟨next, -, hcase, -⟩ := numTicks_spec hk
  rcases h.ticks with ⟨h0, hn, ha⟩ | ⟨rfl, ha⟩ <;> omega

theorem Passes.rests (h : Passes s s' n) (hk : s.soonIndex < 32) : Rests s' := by
  have hidx := h.soonIndex
  have hs := h.sifted
  obtain ⟨next, h31, hcase, -⟩ := numTicks_spec hk
  refine ⟨by omega, ?_⟩
  rcases h.ticks with ⟨h0, hn, -⟩ | ⟨-, ha⟩
  · constructor
    · omega
    · omega
  · omega

end

section

variable (h : Passes s s' n) (hw : Wf s) (hr : Rests s) (ha : s.announcing = 0)
include h hw hr ha

section

omit [DecidableEq τ]

theorem Passes.cutoff : cutoff s' = cutoff s - n := by
  have hk := hw.soonIndex
  have hidx := h.soonIndex
  have hle := h.ticks_le hk
  obtain ⟨next, h31, hcase, -⟩ := numTicks_spec hk
  have hs := hr.1
  have hs' := hr.2
  simp only [Wheel.cutoff, h.sifted]
  omega

theorem Passes.wf : Wf s' where
  soonIndex := by rw [h.soonIndex]; omega
  laterIndex := by rw [h.laterIndex]; exact hw.laterIndex
  announcing := (h.ticks_le hw.soonIndex).2.2
  fits x t ht := by
    rw [h.lists] at ht
    have hf := hw.fits x t ht
    cases x with
    | soonDefer =>
      rw [hw.soonDefer_nil ha] at ht
      simp at ht
    | soon i | later j | distant => simpa [Fits, h.dticks, h.flagSoon, h.flagLater] using hf
  nodup x := by rw [h.lists]; exact hw.nodup x
  unlinked t ht := by
    rw [h.flagSoon, h.flagLater]
    exact hw.unlinked t (by rwa [h.lists] at ht)
  bits i hi := by
    rw [h.lists] at hi
    rcases hw.bits i hi with hb | hb
    · by_cases hi : s'.announcing = 1 ∧ i = s'.soonIndex
      · exact .inr ⟨hi.2, hi.1⟩
      · exact .inl ((h.bits i).2 ⟨hb, hi⟩)
    · omega
  bound x hx := by
    rw [h.lists, h.dticks, h.cutoff hw hr ha] at hx
    obtain ⟨y, hy, hle⟩ := deltaKeys_sublist_le (c := Wheel.cutoff s) (.refl _)
      hw.distant_nonneg (by omega) x hx
    exact hle.trans (hw.bound y hy)

end

theorem Passes.remainder (hx : x ≠ .distant) (ht : t ∈ s.lists x) :
    timeoutWheelRemainder s' t = timeoutWheelRemainder s t - n := by
  have hk := hw.soonIndex
  have hw' := h.wf hw hr ha
  have hle := h.ticks_le hk
  have ht' : t ∈ s'.lists x := by rwa [h.lists]
  have hidx := h.soonIndex
  cases x with
  | distant => exact absurd rfl hx
  | soonDefer =>
    rw [hw.soonDefer_nil ha] at ht
    simp at ht
  | later j =>
    obtain ⟨next, h31, hcase, -⟩ := numTicks_spec hk
    have hs := hr.1
    have hs' := hr.2
    rw [remainder_later hw ht, remainder_later hw' ht', h.laterIndex, h.dticks, h.sifted]
    omega
  | soon i =>
    have hdist := numTicks_le hw ha ht
    have hticks := h.ticks
    rw [remainder_soon hw ht] at hdist ⊢
    rw [remainder_soon hw' ht']
    split at hdist <;> split <;> omega

end

end Advance

section Gather

variable {s s' : State τ} {t : τ} {l : List τ}

def soonSlot (s : State τ) (t : τ) : ℕ := (s.dticks t % 32).toNat

theorem soonSlot_lt (s : State τ) (t : τ) : soonSlot s t < 32 := by
  simp only [soonSlot]
  omega

structure SoonMove (s s' : State τ) (t : τ) : Prop where
  relinks : Relinks s s' t (.soon (soonSlot s t))
  bits : ∀ i, s'.soonBits.getLsbD i = (s.soonBits.getLsbD i || decide (i = soonSlot s t))
  flagSoon : s'.flagSoon t = true
  dticks : s'.dticks t = soonSlot s t

theorem SoonMove.wf (h : SoonMove s s' t) (hw : Wf s) : Wf s' := by
  refine h.relinks.wf hw nofun ⟨soonSlot_lt s t, h.flagSoon, h.dticks⟩ ?_
  rintro - ⟨⟩
  rw [h.bits]
  simp

theorem soonMove_sift (s : State τ) (t : τ) : SoonMove s
    (timeoutWheelPrependSoon (timeoutWheelClearFlags (sysDlistRemove s t) t) t) t where
  relinks := {
    others y hy := by
      simp only [soonSlot] at hy
      simp [timeoutWheelPrependSoon, timeoutWheelClearFlags, sysDlistRemove, sysDlistPrepend, hy]
    joins := by
      simp only [timeoutWheelPrependSoon, timeoutWheelClearFlags, sysDlistRemove, sysDlistPrepend,
        soonSlot, update_self]
      rfl
    fields u hu := by
      constructor <;>
        simp [timeoutWheelPrependSoon, timeoutWheelClearFlags, sysDlistRemove, sysDlistPrepend, hu]
    indices := ⟨rfl, rfl, rfl, rfl⟩
    bits i hi := (getLsbD_or_bit s.soonBits (soonSlot_lt s t)).trans (by simp [hi]) }
  bits i := getLsbD_or_bit _ (soonSlot_lt s t)
  flagSoon := by simp [timeoutWheelPrependSoon, sysDlistPrepend]
  dticks := by
    simp [timeoutWheelPrependSoon, sysDlistPrepend, timeoutWheelClearFlags, sysDlistRemove, soonSlot]

theorem soonMove_undefer (ht : s.flagSoon t = true) : SoonMove s (undefer s t) t where
  relinks := {
    others y hy := by
      simp only [soonSlot] at hy
      simp [undefer, sysDlistRemove, sysDlistAppend, hy]
    joins := by
      simp only [undefer, sysDlistAppend, soonSlot, update_self]
      exact perm_append_singleton _ _
    fields u hu := by constructor <;> simp [undefer, sysDlistRemove, sysDlistAppend, hu]
    indices := ⟨rfl, rfl, rfl, rfl⟩
    bits i hi := (getLsbD_or_bit s.soonBits (soonSlot_lt s t)).trans (by simp [hi]) }
  bits i := getLsbD_or_bit _ (soonSlot_lt s t)
  flagSoon := ht
  dticks := by simp [undefer, sysDlistAppend, soonSlot]

structure Gathers (s s' : State τ) (l : List τ) : Prop where
  wf : Wf s'
  indices : SameIndices s s'
  others : ∀ u, u ∉ l → SameFields s s' u ∧ ∀ x, u ∈ s'.lists x ↔ u ∈ s.lists x
  moved : ∀ t ∈ l, ∀ x, t ∈ s'.lists x ↔ x = .soon (soonSlot s t)
  bits : ∀ i, s'.soonBits.getLsbD i = true ↔ s.soonBits.getLsbD i = true ∨ ∃ t ∈ l, i = soonSlot s t

theorem SoonMove.soonSlot (h : SoonMove s s' t) (hu : u ≠ t) :
    Wheel.soonSlot s' u = Wheel.soonSlot s u := by
  simp [Wheel.soonSlot, (h.relinks.fields u hu).dticks]

theorem Gathers.cons (hw : Wf s) (h₁ : SoonMove s s₁ t) (ht : t ∉ l) (h : Gathers s₁ s' l) :
    Gathers s s' (t :: l) where
  wf := h.wf
  indices := by
    obtain ⟨a, b, c, d⟩ := h.indices
    obtain ⟨a', b', c', d'⟩ := h₁.relinks.indices
    exact ⟨a.trans a', b.trans b', c.trans c', d.trans d'⟩
  others u hu := by
    rw [mem_cons, not_or] at hu
    obtain ⟨⟨a, b, c⟩, hmem⟩ := h.others u hu.2
    obtain ⟨a', b', c'⟩ := h₁.relinks.fields u hu.1
    exact ⟨⟨a.trans a', b.trans b', c.trans c'⟩, fun x => (hmem x).trans (h₁.relinks.mem hu.1)⟩
  moved u hu x := by
    by_cases hut : u = t
    · subst hut
      rw [(h.others u ht).2 x]
      exact h₁.relinks.mem_self hw
    · rw [h.moved u ((mem_cons.1 hu).resolve_left hut) x, h₁.soonSlot hut]
  bits i := by
    have hslot : ∀ u ∈ l, Wheel.soonSlot s₁ u = Wheel.soonSlot s u := by
      intro u hu
      refine h₁.soonSlot ?_
      rintro rfl
      exact ht hu
    rw [h.bits i, h₁.bits i, Bool.or_eq_true, decide_eq_true_eq, or_assoc]
    refine or_congr_right ?_
    simp only [mem_cons, exists_eq_or_imp]
    refine or_congr_right (exists_congr fun u => and_congr_right fun hu => ?_)
    rw [hslot u hu]

theorem gathers_foldl {f : State τ → τ → State τ} {P : State τ → τ → Prop}
    (hf : ∀ s t, P s t → SoonMove s (f s t) t)
    (hP : ∀ s s' t u, SoonMove s s' t → u ≠ t → P s u → P s' u) (hn : l.Nodup) (hw : Wf s)
    (hl : ∀ t ∈ l, P s t) : Gathers s (l.foldl f s) l := by
  induction l generalizing s with
  | nil => exact ⟨hw, ⟨rfl, rfl, rfl, rfl⟩, by simp [SameFields.mk], by simp, by simp⟩
  | cons t ts ih =>
    rw [nodup_cons] at hn
    rw [forall_mem_cons] at hl
    have hmove := hf s t hl.1
    refine .cons hw hmove hn.1 (ih hn.2 (hmove.wf hw) fun u hu => ?_)
    refine hP s _ t u hmove ?_ (hl.2 u hu)
    rintro rfl
    exact hn.1 hu

theorem gathers_undefer (hw : Wf s) :
    Gathers s ((s.lists .soonDefer).foldl undefer s) (s.lists .soonDefer) :=
  gathers_foldl (P := fun s t => s.flagSoon t = true) (fun _ _ => soonMove_undefer)
    (fun _ _ _ u h hu hp => by rw [(h.relinks.fields u hu).flagSoon]; exact hp)
    (hw.nodup _) hw (fun t ht => (hw.fits _ t ht).2.1)

theorem gathers_sift (hw : Wf s) :
    Gathers s (timeoutWheelSiftDownToSoon s) (s.lists (.later s.laterIndex)).reverse := by
  rw [timeoutWheelSiftDownToSoon, ← foldl_reverse]
  exact gathers_foldl (fun s t _ => soonMove_sift s t)
    (fun _ _ _ _ _ _ _ => trivial) (nodup_reverse.2 (hw.nodup _)) hw (fun _ _ => trivial)

end Gather

section Sift

variable {s s' : State τ} {t : τ}

/-- The preparing pass: a leading part of the list gets composite values within one
band, and what stays keeps its keys, counted from one band further on. -/
structure Prepared (l : List τ) (siftTicks newDticks : ℤ) (dticks : τ → ℤ) (flagLater : τ → Bool)
    (taken kept : List τ) (dticks' : τ → ℤ) (flagLater' : τ → Bool) : Prop where
  split : taken ++ kept = l
  others : ∀ t, t ∉ l → dticks' t = dticks t ∧ flagLater' t = flagLater t
  moved : ∀ t ∈ taken, newDticks ≤ dticks' t ∧ dticks' t < newDticks + siftTicks ∧
    flagLater' t = true
  stays : ∀ t ∈ kept, 0 ≤ dticks' t ∧ flagLater' t = flagLater t
  keys : ∀ c, ∀ x ∈ deltaKeys dticks' (c + siftTicks) kept, x ∈ deltaKeys dticks c l

theorem prepared_siftPrepare (hn : l.Nodup) (h0 : 0 < siftTicks) (dticks : τ → ℤ)
    (hd : ∀ u ∈ l, 0 ≤ dticks u) (newDticks : ℤ) (flagLater : τ → Bool) :
    let r := siftPrepare l siftTicks newDticks dticks flagLater
    Prepared l siftTicks newDticks dticks flagLater r.1 r.2.1 r.2.2.1 r.2.2.2 := by
  induction l generalizing siftTicks newDticks dticks flagLater with
  | nil => exact ⟨rfl, by simp [siftPrepare], by simp [siftPrepare], by simp [siftPrepare],
      by simp [siftPrepare, deltaKeys]⟩
  | cons t ts ih =>
    rw [nodup_cons] at hn
    have hd' := forall_mem_cons.1 hd
    have hne : ∀ u ∈ ts, u ≠ t := by
      rintro u hu rfl
      exact hn.1 hu
    have hsame : ∀ v, ∀ u ∈ ts, update dticks t v u = dticks u :=
      fun v u hu => update_of_ne (hne u hu) _ _
    simp only [siftPrepare]
    split
    · exact {
        split := rfl
        others u hu := by simp [ne_of_not_mem_cons hu]
        moved := by simp
        stays u hu := by
          refine ⟨?_, rfl⟩
          rcases mem_cons.1 hu with rfl | hu
          · simp only [update_self]
            omega
          · simpa [hne u hu] using hd'.2 u hu
        keys c x hx := by
          simp only [deltaKeys, update_self] at hx ⊢
          rwa [show c + siftTicks + (dticks t - siftTicks) = c + dticks t by omega,
            deltaKeys_congr (hsame _)] at hx }
    · have hrest := ih hn.2 (show 0 < siftTicks - dticks t by omega)
        (update dticks t (newDticks + dticks t))
        (fun u hu => by simpa [hne u hu] using hd'.2 u hu) (newDticks + dticks t)
        (update flagLater t true)
      have hself := hrest.others t hn.1
      simp only [update_self] at hself
      exact {
        split := congrArg (t :: ·) hrest.split
        others u hu := by
          rw [mem_cons, not_or] at hu
          simpa [hu.1] using hrest.others u hu.2
        moved u hu := by
          rcases mem_cons.1 hu with rfl | hu
          · rw [hself.1, hself.2]
            exact ⟨by omega, by omega, rfl⟩
          · obtain ⟨h1, h2, h3⟩ := hrest.moved u hu
            exact ⟨by simp only; omega, by simp only; omega, h3⟩
        stays u hu := by
          have hut : u ∈ ts := by
            rw [← hrest.split]
            exact mem_append_right _ hu
          simpa [hne u hut] using hrest.stays u hu
        keys c x hx := by
          have := hrest.keys (c + dticks t) x
            (by rwa [show c + dticks t + (siftTicks - dticks t) = c + siftTicks by omega])
          rw [deltaKeys_congr (hsame _)] at this
          exact mem_cons_of_mem _ this }

def Near (s : State τ) (t : τ) : Prop := ∃ x, x ≠ .distant ∧ t ∈ s.lists x

def Linked (s : State τ) (t : τ) : Prop := ∃ x, t ∈ s.lists x

/-- Lists are rearranged, but nobody is dropped, and whoever is off the distant list
stays off it with the same remainder. -/
structure Keeps (s s' : State τ) : Prop where
  linked : ∀ t, Linked s' t ↔ Linked s t
  near : ∀ t, Near s t → Near s' t
  remainder : ∀ t, Near s t → timeoutWheelRemainder s' t = timeoutWheelRemainder s t

theorem Keeps.trans {s₁ s₂ s₃ : State τ} (h : Keeps s₁ s₂) (h' : Keeps s₂ s₃) : Keeps s₁ s₃ where
  linked t := (h'.linked t).trans (h.linked t)
  near t ht := h'.near t (h.near t ht)
  remainder t ht := (h'.remainder t (h.near t ht)).trans (h.remainder t ht)

theorem Gathers.linked (h : Gathers s s' l) (hl : ∀ t ∈ l, Linked s t) (t : τ) :
    Linked s' t ↔ Linked s t := by
  by_cases ht : t ∈ l
  · exact iff_of_true ⟨_, (h.moved t ht _).2 rfl⟩ (hl t ht)
  · exact exists_congr ((h.others t ht).2)

theorem Gathers.near (h : Gathers s s' l) (ht : Near s t) : Near s' t := by
  by_cases htl : t ∈ l
  · exact ⟨_, by simp, (h.moved t htl _).2 rfl⟩
  · obtain ⟨x, hx, hmem⟩ := ht
    exact ⟨x, hx, ((h.others t htl).2 x).2 hmem⟩

theorem keeps_sift (hw : Wf s) (ha : s.announcing = 0) (hk : s.soonIndex = 31)
    (hs : s.sifted = 0) : Keeps s (timeoutWheelSiftDownToSoon s) := by
  have hg := gathers_sift hw
  refine ⟨hg.linked fun t ht => ⟨_, mem_reverse.1 ht⟩, fun t => hg.near, ?_⟩
  rintro t ⟨x, hx, ht⟩
  by_cases hl : t ∈ (s.lists (.later s.laterIndex)).reverse
  · have ht' := (hg.moved t hl _).2 rfl
    rw [remainder_later hw (mem_reverse.1 hl), remainder_soon hg.wf ht', hg.indices.soonIndex, hg.indices.announcing, soonSlot]
    split <;> omega
  · exact remainder_congr (hw.flagged hx ht) (hg.others t hl).1 hg.indices

theorem sift_later_nil (hw : Wf s) :
    (timeoutWheelSiftDownToSoon s).lists (.later s.laterIndex) = [] := by
  have hg := gathers_sift hw
  refine eq_nil_iff_forall_not_mem.2 fun t ht => ?_
  by_cases hl : t ∈ (s.lists (.later s.laterIndex)).reverse
  · simpa using (hg.moved t hl _).1 ht
  · exact hl (mem_reverse.2 (((hg.others t hl).2 _).1 ht))

/-- `timeout_wheel_sift_down` after its first half. -/
def siftLater (s : State τ) : State τ :=
  { timeoutWheelSiftDownToLater s with laterIndex := (s.laterIndex + 1) % 32, sifted := 1 }

theorem siftDown_eq (s : State τ) :
    timeoutWheelSiftDown s = siftLater (timeoutWheelSiftDownToSoon s) := rfl

section SiftLater

variable (hw : Wf s) (hnil : s.lists (.later s.laterIndex) = [])
include hw hnil

theorem siftLater_spec : ∃ taken kept, taken ++ kept = s.lists .distant ∧
    (siftLater s).lists .distant = kept ∧ (siftLater s).lists (.later s.laterIndex) = taken ∧
    (∀ x, x ≠ .distant → x ≠ .later s.laterIndex → (siftLater s).lists x = s.lists x) ∧
    Prepared (s.lists .distant) 32 (s.laterIndex * 32) s.dticks s.flagLater taken kept
      (siftLater s).dticks (siftLater s).flagLater := by
  have hp := prepared_siftPrepare (hw.nodup .distant) (show (0 : ℤ) < 32 by norm_num) _
    hw.distant_nonneg (s.laterIndex * 32) s.flagLater
  refine ⟨_, _, hp.split, ?_, ?_, fun x hx hx' => ?_, hp⟩
  · simp [siftLater, timeoutWheelSiftDownToLater]
  · simp [siftLater, timeoutWheelSiftDownToLater, hnil]
  · simp [siftLater, timeoutWheelSiftDownToLater, hx, hx']

theorem siftLater_same (hx : x ≠ .distant) (ht : t ∈ s.lists x) :
    x ≠ .later s.laterIndex ∧ t ∈ (siftLater s).lists x := by
  obtain ⟨-, -, -, -, -, hother, -⟩ := siftLater_spec hw hnil
  have hx' : x ≠ .later s.laterIndex := by
    rintro rfl
    rw [hnil] at ht
    simp at ht
  exact ⟨hx', by rwa [hother x hx hx']⟩

theorem linked_siftLater (t : τ) : Linked (siftLater s) t ↔ Linked s t := by
  obtain ⟨taken, kept, hsplit, hdist, hlater, hother, -⟩ := siftLater_spec hw hnil
  constructor
  · rintro ⟨x, ht⟩
    by_cases hx : x = .distant
    · rw [hx, hdist] at ht
      exact ⟨.distant, hsplit ▸ mem_append_right _ ht⟩
    · by_cases hx' : x = .later s.laterIndex
      · rw [hx', hlater] at ht
        exact ⟨.distant, hsplit ▸ mem_append_left _ ht⟩
      · exact ⟨x, by rwa [hother x hx hx'] at ht⟩
  · rintro ⟨x, ht⟩
    by_cases hx : x = .distant
    · rw [hx, ← hsplit, mem_append] at ht
      rcases ht with ht | ht
      · exact ⟨.later s.laterIndex, by rwa [hlater]⟩
      · exact ⟨.distant, by rwa [hdist]⟩
    · exact ⟨x, (siftLater_same hw hnil hx ht).2⟩

theorem wf_siftLater (ha : s.announcing = 0) (hs : s.sifted = 0) : Wf (siftLater s) := by
  obtain ⟨taken, kept, hsplit, hdist, hlater, hother, hp⟩ := siftLater_spec hw hnil
  have hli := hw.laterIndex
  exact {
    soonIndex := hw.soonIndex
    laterIndex := Nat.mod_lt _ (by norm_num)
    announcing := hw.announcing
    fits x t ht := by
      by_cases hx : x = .distant
      · subst hx
        rw [hdist] at ht
        obtain ⟨hf1, hf2⟩ := hw.unflagged (hsplit ▸ mem_append_right _ ht)
        obtain ⟨h0, hfl⟩ := hp.stays t ht
        exact ⟨hf1, hfl.trans hf2, h0⟩
      by_cases hx' : x = .later s.laterIndex
      · subst hx'
        rw [hlater] at ht
        obtain ⟨hlo, hhi, hfl⟩ := hp.moved t ht
        exact ⟨hli, (hw.unflagged (hsplit ▸ mem_append_left _ ht)).1, hfl, by omega, by omega⟩
      rw [hother x hx hx'] at ht
      have hnot : t ∉ s.lists .distant := fun hd => hx (hw.slot_unique ht hd)
      obtain ⟨hdt, hfl⟩ := hp.others t hnot
      have hf := hw.fits x t ht
      cases x with
      | soon i => exact ⟨hf.1, hf.2.1, hdt.trans hf.2.2⟩
      | later j =>
        refine ⟨hf.1, hf.2.1, hfl.trans hf.2.2.1, ?_⟩
        rw [hdt]
        exact hf.2.2.2
      | soonDefer =>
        rw [hw.soonDefer_nil ha] at ht
        simp at ht
      | distant => exact absurd rfl hx
    nodup := by
      have hnd := hw.nodup .distant
      rw [← hsplit, nodup_append] at hnd
      intro x
      by_cases hx : x = .distant
      · rw [hx, hdist]
        exact hnd.2.1
      · by_cases hx' : x = .later s.laterIndex
        · rw [hx', hlater]
          exact hnd.1
        · rw [hother x hx hx']
          exact hw.nodup x
    unlinked t ht := by
      have hnot : ∀ x, t ∉ s.lists x := fun x hx =>
        ((linked_siftLater hw hnil t).2 ⟨x, hx⟩).elim ht
      obtain ⟨h1, h2⟩ := hw.unlinked t hnot
      exact ⟨h1, (hp.others t (hnot _)).2.trans h2⟩
    bits i hi := by
      exact hw.bits i hi
    bound := by
      have hc : cutoff (siftLater s) = cutoff s + 32 := by
        simp only [siftLater, timeoutWheelSiftDownToLater, cutoff]
        omega
      intro x hx
      rw [hdist, hc] at hx
      exact hw.bound x (hp.keys _ x hx) }

theorem keeps_siftLater (ha : s.announcing = 0) (hs : s.sifted = 0) : Keeps s (siftLater s) := by
  obtain ⟨taken, kept, -, -, -, -, hp⟩ := siftLater_spec hw hnil
  have hw' := wf_siftLater hw hnil ha hs
  refine ⟨linked_siftLater hw hnil, ?_, ?_⟩
  · rintro t ⟨x, hx, ht⟩
    exact ⟨x, hx, (siftLater_same hw hnil hx ht).2⟩
  · rintro t ⟨x, hx, ht⟩
    obtain ⟨hx', ht'⟩ := siftLater_same hw hnil hx ht
    have hnot : t ∉ s.lists .distant := fun hd => hx (hw.slot_unique ht hd)
    have hdt := (hp.others t hnot).1
    cases x with
    | soon i =>
      rw [remainder_soon hw ht, remainder_soon hw' ht']
      rfl
    | soonDefer => rw [remainder_soonDefer hw ht, remainder_soonDefer hw' ht']
    | later j =>
      -- one band fewer ahead, but the wheel now rests
      have hj := (hw.fits _ _ ht).1
      have hli := hw.laterIndex
      have hne : j ≠ s.laterIndex := fun h => hx' (by rw [h])
      rw [remainder_later hw ht, remainder_later hw' ht', hdt]
      simp only [siftLater, timeoutWheelSiftDownToLater]
      omega
    | distant => exact absurd rfl hx

end SiftLater

theorem siftDown_spec (hw : Wf s) (ha : s.announcing = 0) (hk : s.soonIndex = 31)
    (hs : s.sifted = 0) : Wf (timeoutWheelSiftDown s) ∧ Keeps s (timeoutWheelSiftDown s) := by
  have hg := gathers_sift hw
  have hnil : (timeoutWheelSiftDownToSoon s).lists
      (.later (timeoutWheelSiftDownToSoon s).laterIndex) = [] := by
    rw [hg.indices.laterIndex]
    exact sift_later_nil hw
  have ha' := hg.indices.announcing.trans ha
  have hs' := hg.indices.sifted.trans hs
  exact ⟨wf_siftLater hg.wf hnil ha' hs',
    (keeps_sift hw ha hk hs).trans (keeps_siftLater hg.wf hnil ha' hs')⟩

end Sift

section AnnounceEnd

variable {s : State τ}

theorem foldl_undefer (l : List τ) (s : State τ) (n : ℕ) :
    l.foldl undefer { s with announcing := n } = { l.foldl undefer s with announcing := n } := by
  induction l generalizing s with
  | nil => rfl
  | cons t ts ih => exact ih (undefer s t)

def undeferred (s : State τ) : State τ :=
  { (s.lists .soonDefer).foldl undefer s with announcing := 0 }

theorem announceNowEnd_eq (hw : Wf s) : announceNowEnd s =
    if s.soonIndex = 31 then timeoutWheelSiftDown (undeferred s) else undeferred s := by
  have hidx := (gathers_undefer hw).indices.soonIndex
  simp [announceNowEnd, foldl_undefer, undeferred, hidx]

section Undeferred

variable (hw : Wf s) (hnil : s.lists (.soon s.soonIndex) = [])
include hw hnil

theorem wf_undeferred : Wf (undeferred s) := by
  have hg := gathers_undefer hw
  have hempty : ∀ t, t ∉ (undeferred s).lists .soonDefer := by
    intro t ht
    by_cases hd : t ∈ s.lists .soonDefer
    · simpa using (hg.moved t hd _).1 ht
    · exact hd (((hg.others t hd).2 _).1 ht)
  exact {
    soonIndex := hg.wf.soonIndex
    laterIndex := hg.wf.laterIndex
    announcing := Nat.zero_le _
    fits x t ht := by
      have hf := hg.wf.fits x t ht
      cases x with
      | soonDefer => exact absurd ht (hempty t)
      | soon i | later j | distant => exact hf
    nodup := hg.wf.nodup
    unlinked := hg.wf.unlinked
    bits i hi := by
      left
      rcases hg.wf.bits i hi with hb | ⟨rfl, -⟩
      · exact hb
      -- the current slot was empty: whoever is there now came with its bit
      · obtain ⟨t, ht⟩ := exists_mem_of_ne_nil _ hi
        rw [hg.indices.soonIndex] at ht
        by_cases hd : t ∈ s.lists .soonDefer
        · refine (hg.bits _).2 (.inr ⟨t, hd, ?_⟩)
          rw [hg.indices.soonIndex]
          simpa using (hg.moved t hd _).1 ht
        · have := ((hg.others t hd).2 _).1 ht
          rw [hnil] at this
          simp at this
    bound := hg.wf.bound }

theorem keeps_undeferred : Keeps s (undeferred s) := by
  have hg := gathers_undefer hw
  have hw' := wf_undeferred hw hnil
  refine ⟨hg.linked fun t ht => ⟨_, ht⟩, fun t => hg.near, ?_⟩
  rintro t ⟨x, hx, ht⟩
  by_cases hd : t ∈ s.lists .soonDefer
  · have hdt := (hw.fits _ _ hd).2.2
    have hk := hw.soonIndex
    have ht' : t ∈ (undeferred s).lists (.soon (soonSlot s t)) := (hg.moved t hd _).2 rfl
    have hslot : soonSlot s t = (undeferred s).soonIndex := by
      rw [soonSlot, hdt]
      exact (show ((s.soonIndex + 32 : ℤ) % 32).toNat = s.soonIndex by omega).trans
        hg.indices.soonIndex.symm
    rw [remainder_soonDefer hw hd, remainder_soon hw' ht', if_pos hslot]
    rfl
  · obtain ⟨hfields, hmem⟩ := hg.others t hd
    have ht' : t ∈ (undeferred s).lists x := (hmem x).2 ht
    have hidx : (undeferred s).soonIndex = s.soonIndex := hg.indices.soonIndex
    cases x with
    | soon i =>
      have hne : i ≠ s.soonIndex := by
        rintro rfl
        rw [hnil] at ht
        simp at ht
      rw [remainder_soon hw ht, remainder_soon hw' ht', hidx, if_neg hne, if_neg hne]
    | later j =>
      have hli : (undeferred s).laterIndex = s.laterIndex := hg.indices.laterIndex
      have hsi : (undeferred s).sifted = s.sifted := hg.indices.sifted
      have hdt : (undeferred s).dticks t = s.dticks t := hfields.dticks
      rw [remainder_later hw ht, remainder_later hw' ht', hidx, hli, hsi, hdt]
    | soonDefer => exact absurd ht hd
    | distant => exact absurd rfl hx

theorem announceNowEnd_spec (hs : s.sifted = 0) :
    Wf (announceNowEnd s) ∧ Rests (announceNowEnd s) ∧ (announceNowEnd s).announcing = 0 ∧
      Keeps s (announceNowEnd s) := by
  have hg := gathers_undefer hw
  have hidx : (undeferred s).soonIndex = s.soonIndex := hg.indices.soonIndex
  have hsi : (undeferred s).sifted = 0 := hg.indices.sifted.trans hs
  have hw' := wf_undeferred hw hnil
  have hkeep := keeps_undeferred hw hnil
  rw [announceNowEnd_eq hw]
  split
  · next hk =>
    obtain ⟨hw₂, hkeep₂⟩ := siftDown_spec hw' rfl (hidx.trans hk) hsi
    have hg₂ := gathers_sift hw'
    have ha₂ : (timeoutWheelSiftDown (undeferred s)).announcing = 0 := hg₂.indices.announcing
    have hk₂ : (timeoutWheelSiftDown (undeferred s)).soonIndex = 31 :=
      hg₂.indices.soonIndex.trans (hidx.trans hk)
    exact ⟨hw₂, ⟨le_rfl, iff_of_true rfl ⟨hk₂, ha₂⟩⟩, ha₂, hkeep.trans hkeep₂⟩
  · exact ⟨hw', ⟨by omega, by omega⟩, rfl, hkeep⟩

end Undeferred

end AnnounceEnd

section InsertFrame

variable {s s' : State τ} {t : τ}

structure Inserts (s s' : State τ) (t : τ) : Prop where
  indices : SameIndices s s'
  linked : Linked s' t
  mem : ∀ u, u ≠ t → ∀ x, u ∈ s'.lists x ↔ u ∈ s.lists x
  fields : ∀ u, u ≠ t → u ∉ s.lists .distant → SameFields s s' u

theorem Relinks.inserts (h : Relinks s s' t x) (hw : Wf s) : Inserts s s' t :=
  ⟨h.indices, ⟨x, (h.mem_self hw).2 rfl⟩, fun _ hu _ => h.mem hu, fun u hu _ => h.fields u hu⟩

theorem inserts_insertDistant (s : State τ) (t : τ) (d : ℤ) :
    Inserts s (timeoutWheelInsertDistant { s with dticks := update s.dticks t d } t) t := by
  refine ⟨⟨rfl, rfl, rfl, rfl⟩, ⟨.distant, ?_⟩, fun u hu x => ?_, fun u hu hnot => ?_⟩
  · exact (deltaInsert_perm _ _ _ _).mem_iff.2 mem_cons_self
  · by_cases hx : x = .distant
    · subst hx
      simp only [timeoutWheelInsertDistant, update_self]
      rw [(deltaInsert_perm _ _ _ _).mem_iff]
      simp [hu]
    · simp [timeoutWheelInsertDistant, hx]
  · refine ⟨?_, rfl, rfl⟩
    exact (deltaInsert_of_notMem hu hnot).trans (update_of_ne hu _ _)

theorem Wf.inserts (h : Wf s) (ht : ∀ y, t ∉ s.lists y)
    (hins : zTimeoutQInsert s t d = some (s', b)) : Inserts s s' t := by
  obtain ⟨-, -, ⟨-, rfl⟩ | ⟨-, -, rfl⟩ | ⟨-, -, -, rfl⟩ | ⟨-, -, -, rfl⟩⟩ := insert_cases hins
  · exact (relinks_soon ht d).inserts h
  · exact (relinks_defer ht d).inserts h
  · exact (relinks_later ht d).inserts h
  · exact inserts_insertDistant s t d

theorem Wf.insert_near (h : Wf s) (hr : Rests s) (ht : ∀ y, t ∉ s.lists y) (h1 : 1 ≤ d)
    (hc : d ≤ cutoff s) (hm : d ≤ int64Max) (hins : zTimeoutQInsert s t d = some (s', b)) :
    Near s' t ∧ timeoutWheelRemainder s' t = d := by
  have hw' := h.insert ht hm hins
  have hk := h.soonIndex
  have ha := h.announcing
  obtain ⟨-, -, ⟨hd, rfl⟩ | ⟨rfl, -, rfl⟩ | ⟨hd, -, -, rfl⟩ | ⟨-, -, hfar, rfl⟩⟩ :=
    insert_cases hins
  · have hmem := ((relinks_soon ht d).mem_self h).2 rfl
    refine ⟨⟨_, by simp, hmem⟩, ?_⟩
    have hidx := (relinks_soon ht d).indices
    rw [remainder_soon hw' hmem, hidx.soonIndex, hidx.announcing]
    split <;> omega
  · have hmem := ((relinks_defer ht 32).mem_self h).2 rfl
    exact ⟨⟨_, by simp, hmem⟩, remainder_soonDefer hw' hmem⟩
  · have hmem := ((relinks_later ht d).mem_self h).2 rfl
    refine ⟨⟨_, by simp, hmem⟩, ?_⟩
    rw [remainder_later hw' hmem]
    have hpos : (uint32 (d + s.soonIndex - 32) : ℤ) = d + s.soonIndex - 32 := by
      refine uint32_eq (by omega) ?_
      simp only [cutoff] at hc
      have := hr.1
      omega
    have hs := hr.1
    have hs' := hr.2
    simp only [cutoff] at hc
    simp only [timeoutWheelAppendLater, sysDlistAppend, update_self, laterBand]
    omega
  · omega

theorem Wf.remainder_pos (h : Wf s) (ha : s.announcing = 0) (hx : x ≠ .distant) (ht : t ∈ s.lists x)
    : 0 < timeoutWheelRemainder s t := by
  have hk := h.soonIndex
  cases x with
  | soon i =>
    have hi := (h.fits _ _ ht).1
    rw [remainder_soon h ht]
    split <;> omega
  | soonDefer => rw [remainder_soonDefer h ht]; norm_num
  | later j =>
    rw [remainder_later h ht]
    omega
  | distant => exact absurd rfl hx

end InsertFrame

end ZephyrRtos.Timeout.Wheel
