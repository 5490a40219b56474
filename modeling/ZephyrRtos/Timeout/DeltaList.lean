import ZephyrRtos.Lib.DeltaSeq
import ZephyrRtos.Timeout.Refinement

/-! `kernel/timeout_list.h`: the sorted list in which a timeout stores its expiry as
a delta to its predecessor. -/

namespace ZephyrRtos.Timeout.DeltaList

open List Function Lib

variable {τ : Type} [DecidableEq τ]

/-- `timeout_list`, and the `dticks` field of every timeout. -/
structure State (τ : Type) where
  list : List τ
  dticks : τ → ℤ

def empty : State τ := ⟨[], fun _ => 0⟩

def zTimeoutQFirst (s : State τ) : Option τ := s.list.head?

def zTimeoutQInsert (s : State τ) (t : τ) (d : ℤ) : State τ × Bool :=
  let r := deltaInsert t s.list s.dticks d
  let s' : State τ := ⟨r.1, r.2⟩
  (s', decide (zTimeoutQFirst s' = some t))

def zTimeoutQRemove (s : State τ) (t : τ) : State τ × Bool :=
  (⟨s.list.erase t, deltaAbsorb t s.list s.dticks⟩, decide (zTimeoutQFirst s = some t))

def zTimeoutQRemainder (s : State τ) (t : τ) : ℤ := deltaSum s.dticks t 0 s.list

def zTimeoutQNextExpiry (s : State τ) : ℤ :=
  match zTimeoutQFirst s with
  | none => ticksForever
  | some t => s.dticks t

def zTimeoutQNextGap (s : State τ) : ℤ :=
  match zTimeoutQFirst s with
  | none => int32Max
  | some t => int32 (min (s.dticks t) int32Max)

def zTimeoutQAdvance (s : State τ) (dt : ℤ) : State τ :=
  match zTimeoutQFirst s with
  | none => s
  | some t => { s with dticks := Function.update s.dticks t (int64 (s.dticks t - dt)) }

def zTimeoutQPopDue (s : State τ) : Option (τ × State τ) :=
  match zTimeoutQFirst s with
  | none => none
  | some t => if s.dticks t ≠ 0 then none else some (t, { s with list := s.list.erase t })

abbrev queue (τ : Type) [DecidableEq τ] : Queue τ where
  State := State τ
  init := empty
  isInactive s t := decide (t ∉ s.list)
  insert s _ t d := some (zTimeoutQInsert s t d)
  remove s _ t := zTimeoutQRemove s t
  remainder s _ t := zTimeoutQRemainder s t
  nextExpiry s _ := zTimeoutQNextExpiry s

abbrev drainOps (τ : Type) [DecidableEq τ] : DrainOps (queue τ) where
  nextGap s _ := zTimeoutQNextGap s
  advance s _ dt := zTimeoutQAdvance s dt
  popDue s _ := zTimeoutQPopDue s

abbrev backend (τ : Type) [DecidableEq τ] : Backend τ := genericBackend (drainOps τ)

/-- The deltas stand for the expiry ticks of `p`, sorted, and no sum of them leaves
the range of `k_ticks_t`. -/
structure Holds (s : State τ) (c : ℕ) (p : List (τ × ℤ)) : Prop where
  nodup : s.list.Nodup
  nonneg : ∀ u ∈ s.list, 0 ≤ s.dticks u
  bound : ∀ x ∈ deltaKeys s.dticks c s.list, x.2 - c ≤ int64Max
  sort : StableSort (deltaKeys s.dticks c s.list) p

variable {s : State τ} {c : ℕ} {p : List (τ × ℤ)} {t : τ}

section

variable (h : Holds s c p)
include h

theorem Holds.mem_list : t ∈ s.list ↔ t ∈ p.map Prod.fst := by
  rw [← (h.sort.perm.map Prod.fst).mem_iff, map_fst_deltaKeys]

theorem Holds.delta_le : ∀ u ∈ s.list, 0 ≤ s.dticks u ∧ s.dticks u ≤ int64Max := by
  intro u hu
  refine ⟨h.nonneg u hu, ?_⟩
  have hu' : u ∈ (deltaKeys s.dticks c s.list).map Prod.fst := by simpa using hu
  obtain ⟨⟨u', e⟩, hx, rfl⟩ := mem_map.1 hu'
  exact (delta_le_of_mem h.nonneg hx).trans (h.bound _ hx)

theorem Holds.insert (ht : t ∉ p.map Prod.fst) (h0 : 0 ≤ d) (hm : d ≤ int64Max) :
    Holds (zTimeoutQInsert s t d).1 c (p ++ [(t, c + d)]) := by
  have htl : t ∉ s.list := fun hmem => ht (h.mem_list.1 hmem)
  have hkeys := deltaKeys_insert (c := c) h.delta_le h.nodup htl h0 hm
  have hperm := deltaInsert_perm t s.list s.dticks d
  exact {
    nodup := hperm.nodup_iff.2 (nodup_cons.2 ⟨htl, h.nodup⟩)
    nonneg u hu := deltaInsert_nonneg h.delta_le h.nodup htl h0 hm u (hperm.mem_iff.1 hu)
    bound := by
      simp only [zTimeoutQInsert, hkeys, mem_insertStable]
      rintro x (rfl | hx)
      · simp only; omega
      · exact h.bound x hx
    sort := by
      simp only [zTimeoutQInsert, hkeys]
      exact h.sort.insert _ }

theorem Holds.remove : Holds (zTimeoutQRemove s t).1 c (dropKey t p) := by
  have hkeys := deltaKeys_remove (t := t) h.nonneg h.nodup h.bound
  exact {
    nodup := h.nodup.erase t
    nonneg u hu := deltaAbsorb_nonneg h.nonneg h.nodup h.bound u (mem_of_mem_erase hu)
    bound := by
      simp only [zTimeoutQRemove, hkeys, mem_dropKey]
      exact fun x hx => h.bound x hx.1
    sort := by
      simp only [zTimeoutQRemove, hkeys]
      exact h.sort.dropKey t }

theorem Holds.nextGap (hf : ∀ x ∈ p, (c : ℤ) < x.2) :
    0 < zTimeoutQNextGap s ∧ zTimeoutQNextGap s ≤ int32Max ∧
      ∀ x ∈ p, c + zTimeoutQNextGap s ≤ x.2 := by
  cases hl : s.list with
  | nil =>
    have hp : p = [] := List.Perm.nil_eq (by simpa [hl, deltaKeys] using h.sort.perm) |>.symm
    simp [zTimeoutQNextGap, zTimeoutQFirst, hl, hp, int32Max]
  | cons u us =>
    have hsort := h.sort
    rw [hl] at hsort
    have hpos := hf _ ((hsort.mem_iff _).1 mem_cons_self)
    have hmin := hsort.head.1
    have hgap : zTimeoutQNextGap s = min (s.dticks u) int32Max := by
      simp only [zTimeoutQNextGap, zTimeoutQFirst, hl]
      exact int32_eq (by simp only [int32Max]; omega) (min_le_right _ _)
    rw [hgap]
    refine ⟨by simp only [int32Max]; omega, min_le_right _ _, fun x hx => ?_⟩
    have := hmin x hx
    omega

theorem Holds.advance {dt : ℕ} (hd : (dt : ℤ) ≤ zTimeoutQNextGap s) (hf : ∀ x ∈ p, (c : ℤ) < x.2) :
    Holds (zTimeoutQAdvance s dt) (c + dt) p := by
  cases hl : s.list with
  | nil =>
    have hp : p = [] := List.Perm.nil_eq (by simpa [hl, deltaKeys] using h.sort.perm) |>.symm
    simp only [zTimeoutQAdvance, zTimeoutQFirst, hl]
    subst hp
    exact ⟨h.nodup, h.nonneg, by simp [hl, deltaKeys], by simpa [hl, deltaKeys] using .nil⟩
  | cons u us =>
    have hgap := (h.nextGap hf).2.2
    have hsort := h.sort
    have hnd := h.nodup
    have hnn := h.nonneg
    have hbd := h.bound
    rw [hl] at hsort hbd
    rw [hl, nodup_cons] at hnd
    rw [hl, forall_mem_cons] at hnn
    have hu := hgap _ ((hsort.mem_iff _).1 mem_cons_self)
    have hub := hbd _ mem_cons_self
    have hw : int64 (s.dticks u - dt) = s.dticks u - dt := int64_eq
    have hrest : ∀ v ∈ us, update s.dticks u (s.dticks u - dt) v = s.dticks v := by
      rintro v hv
      refine update_of_ne ?_ _ _
      rintro rfl
      exact hnd.1 hv
    have hkeys : deltaKeys (update s.dticks u (s.dticks u - dt)) (c + dt : ℕ) (u :: us) =
        deltaKeys s.dticks c (u :: us) := by
      simp only [deltaKeys, update_self]
      rw [deltaKeys_congr hrest]
      push_cast
      rw [show (c : ℤ) + dt + (s.dticks u - dt) = c + s.dticks u by omega]
    simp only [zTimeoutQAdvance, zTimeoutQFirst, hl, head?_cons, hw]
    exact {
      nodup := nodup_cons.2 hnd
      nonneg v hv := by
        rcases mem_cons.1 hv with rfl | hv
        · simp only [update_self]; omega
        · simp only [hrest v hv]; exact hnn.2 v hv
      bound x hx := by
        rw [hkeys] at hx
        have := hbd x hx
        omega
      sort := by
        rw [hkeys]
        exact hsort }

theorem Holds.popDue_none (hpop : zTimeoutQPopDue s = none) : ∀ x ∈ p, (c : ℤ) < x.2 := by
  cases hl : s.list with
  | nil =>
    have hp : p = [] := List.Perm.nil_eq (by simpa [hl, deltaKeys] using h.sort.perm) |>.symm
    simp [hp]
  | cons u us =>
    have hsort := h.sort
    rw [hl] at hsort
    have hu := h.nonneg u (by simp [hl])
    have hne : s.dticks u ≠ 0 := by
      intro h0
      simp [zTimeoutQPopDue, zTimeoutQFirst, hl, h0] at hpop
    intro x hx
    have := hsort.head.1 x hx
    omega

theorem Holds.popDue_some (hpop : zTimeoutQPopDue s = some (t, s')) :
    (t, (c : ℤ)) ∈ p ∧ oldestFirst p (t, c) ∧ Holds s' c (dropKey t p) := by
  cases hl : s.list with
  | nil => simp [zTimeoutQPopDue, zTimeoutQFirst, hl] at hpop
  | cons u us =>
    simp only [zTimeoutQPopDue, zTimeoutQFirst, hl, head?_cons] at hpop
    split at hpop
    · simp at hpop
    next h0 =>
    obtain ⟨rfl, rfl⟩ : u = t ∧ { s with list := (u :: us).erase u } = s' := by
      simpa using hpop
    have h0 : s.dticks u = 0 := by simpa using h0
    have hsort := h.sort
    have hkeys : deltaKeys s.dticks c (u :: us) = (u, (c : ℤ)) :: deltaKeys s.dticks c us := by
      simp [deltaKeys, h0]
    rw [hl, hkeys] at hsort
    have hnd := h.nodup
    rw [hl] at hnd
    have hdrop := hsort.dropKey u
    rw [dropKey_cons_self (by simpa using hnd)] at hdrop
    refine ⟨(hsort.mem_iff _).1 mem_cons_self, hsort.head.2, ?_⟩
    rw [erase_cons_head]
    exact {
      nodup := (nodup_cons.1 hnd).2
      nonneg v hv := h.nonneg v (by rw [hl]; exact mem_cons_of_mem _ hv)
      bound x hx := h.bound x (by rw [hl, hkeys]; exact mem_cons_of_mem _ hx)
      sort := hdrop }

end

theorem refines : Refines (drainOps τ) (fun _ _ => True) oldestFirst Holds where
  init := ⟨.nil, by simp [empty], by simp [empty, deltaKeys], .nil⟩
  inactive t h := by simpa using not_congr h.mem_list
  nodup h := h.sort.nodup_iff.1 (by simpa using h.nodup)
  due h x hx := le_of_mem_deltaKeys h.nonneg x ((h.sort.mem_iff x).2 hx)
  insert h ht h0 hm _ hins := by
    obtain rfl := congrArg Prod.fst (Option.some.inj hins)
    exact h.insert ht h0 hm
  remove h _ := h.remove
  gap h hf := h.nextGap hf
  advance h hf _ hd := h.advance hd hf
  popNone h hpop := h.popDue_none hpop
  popSome h hpop := h.popDue_some hpop

/-! Runs of the delta list: the finite map it keeps as long as `z_add_timeout` does
not overflow, and the announce that never ends once it does. -/

variable {cfg : Config}

theorem Holds.remainder {s : State τ} {p : List (τ × ℤ)} (h : Holds s c p) (ht : (t, e) ∈ p) :
    zTimeoutQRemainder s t = e - c := by
  refine deltaSum_eq h.nonneg le_rfl ?_ h.nodup ?_
  · simpa using h.bound
  · simpa using (h.sort.mem_iff _).2 ht

/-- As long as no `z_add_timeout` overflows, the list is a finite map from timeouts to
expiry ticks, and the announce loop fires its entries in order and on their tick. -/
theorem refines_expiry_map {es : List (Event τ)} {k : Kernel (queue τ)}
    (h : Reaches (system (backend τ) cfg) (fun k a => a.fits cfg k ∧ a.foldFits k) es k) :
    (∀ t, t ∈ k.queue.list ↔ t ∈ (pendingOf es).map Prod.fst) ∧
      ((pendingOf es).map Prod.fst).Nodup ∧
      (∀ t e, (t, e) ∈ pendingOf es → zTimeoutQRemainder k.queue t = e - k.currTick) ∧
      OnTime oldestFirst es ∧ (firedTicks es).Pairwise (· ≤ ·) ∧
      (∀ es₁ es₂ t, es = es₁ ++ es₂ → t ∉ (pendingOf es₁).map Prod.fst →
        (∀ e, .added t e ∉ es₂) → ∀ c, .fired t c ∉ es₂) ∧
      (k.phase = .idle → k.currTick = announcedOf es ∧ ∀ x ∈ pendingOf es, (k.currTick : ℤ) < x.2) ∧
      ∃ es' k', Run (system (backend τ) cfg) (fun _ a => a.unattended) k es' k' ∧
        k'.phase = .idle := by
  obtain ⟨htr, hacc⟩ := refines.reaches_accounts (h.mono fun _ _ ha => ⟨⟨ha.1, by simp⟩, ha.2⟩)
  refine ⟨fun t => htr.rel.mem_list, refines.nodup htr.rel, fun t e => htr.rel.remainder,
    htr.onTime, htr.ticks.1, fun _ _ t => (htr.onTime.firedOnTime t).not_fired_of_none, fun hidle => ?_,
    refines.completes cfg htr⟩
  have htotal := hacc.total
  rw [hacc.settled hidle] at htotal
  exact ⟨htotal, htr.future (.inl hidle)⟩

theorem refines_expiry_map_periodic : ∃ es k,
    Reaches (system (backend ℕ) ⟨true, false⟩)
      (fun k a => a.fits ⟨true, false⟩ k ∧ a.foldFits k) es k ∧
    (es, k.currTick, k.phase) =
      ([.added 0 3, .added 1 3, .added 2 4, .announced 5, .fired 0 3, .aborted 2, .fired 1 3],
        3, .handler 0) ∧
    OnTime oldestFirst es := by
  exact Reaches.of_exec_and
    [.add 0 0 2 0, .add 0 1 2 0, .add 0 2 3 0, .announce 0 5, .loop, .loop, .abort 0 2 0,
      .handlerReturn, .loop]
    (by decide +kernel) fun es k hrun => (refines_expiry_map hrun).2.2.2.1

/-- A relative timeout that overflows sits negative at the head, and the timeout of
tick 1 behind it is still pending after three ticks. -/
theorem overflow_hides_due_timeout : ∃ es k,
    Reaches (system (backend ℕ) ⟨false, false⟩) (fun _ _ => True) es k ∧
    (es, k.currTick, k.phase) = ([.added 0 1, .added 1 (int64Min + 5), .announced 3], 3, .idle) ∧
    (0, 1) ∈ pendingOf es := by
  exact Reaches.of_exec _ _
    [.add 0 0 0 0, .add 0 1 (int64Max - 5) 10, .announce 0 3, .loop, .loop, .loop] _
    (by decide +kernel)

theorem stalls_int64Min (t : τ) (c : ℕ) : Stalls (drainOps τ) c
    (fun s => zTimeoutQFirst s = some t ∧ s.dticks t = int64Min) where
  gap {s} h := by
    simp only [zTimeoutQNextGap, h.1, h.2]
    decide
  advance {s} h := by
    refine ⟨?_, ?_⟩
    · simp only [zTimeoutQAdvance, h.1]
      exact h.1
    · simp only [zTimeoutQAdvance, h.1, Function.update_self, h.2]
      decide
  popDue {s} h := by
    simp only [zTimeoutQPopDue, h.1, h.2]
    exact if_pos (by decide)

/-- `z_add_timeout` computes a non-negative delta exactly when its sum fits; while it does, every
announce runs to its end with nothing due left behind. -/
theorem dticks_nonneg_iff_fits (cfg : Config) :
    (∀ (k : Kernel (queue τ)) cpu t ticks sysElapsed, int64Min ≤ ticks → ticks ≤ int64Max →
      (0 ≤ addDticks cfg k cpu ticks sysElapsed ↔ (Action.add cpu t ticks sysElapsed).fits cfg k)) ∧
    ∀ es k, Reaches (system (backend τ) cfg) (fun k a => a.fits cfg k) es k →
      (∀ u ∈ k.queue.list, 0 ≤ k.queue.dticks u) ∧
      ∃ es' k', Run (system (backend τ) cfg) (fun _ a => a.unattended) k es' k' ∧
        k'.phase = .idle ∧ ∀ x ∈ pendingOf (es ++ es'), (k'.currTick : ℤ) < x.2 := by
  refine ⟨fun k cpu t ticks sysElapsed _ hmax => addDticks_nonneg_iff hmax, fun es k h => ?_⟩
  have htr := refines.reaches_tracks (h.mono fun _ _ ha => ⟨ha, by simp⟩)
  refine ⟨htr.rel.nonneg, ?_⟩
  obtain ⟨es', k', hrun, hidle⟩ := refines.completes cfg htr
  refine ⟨es', k', hrun, hidle, ?_⟩
  have hall := Run.trans h (hrun.mono fun k a (ha : a.unattended) => ?_)
  · exact (refines.reaches_tracks (hall.mono fun _ _ ha => ⟨ha, by simp⟩)).future (.inl hidle)
  · exact Action.fits_of_unattended ha

theorem dticks_nonneg_iff_fits_boot :
    0 ≤ addDticks ⟨true, false⟩ (Kernel.boot (queue ℕ)) 0 (int64Max - 1) 0 ∧
      ∀ u ∈ (Kernel.boot (queue ℕ)).queue.list, 0 ≤ (Kernel.boot (queue ℕ)).queue.dticks u := by
  obtain ⟨hiff, hruns⟩ := dticks_nonneg_iff_fits (τ := ℕ) ⟨true, false⟩
  exact ⟨(hiff (.boot (queue ℕ)) 0 0 (int64Max - 1) 0 (by decide) (by decide)).2 (by decide),
    (hruns [] _ .refl).1⟩

/-- `K_TICKS(INT64_MAX)` gives the smallest delta, and the next announce never ends. -/
theorem int64Max_blocks_announce : ∃ es k,
    Reaches (system (backend ℕ) ⟨true, false⟩) (fun _ _ => True) es k ∧
    es = [.added 0 int64Min, .added 1 1, .announced 5] ∧ k.queue.dticks 0 < 0 ∧
    ∀ es' k', Run (system (backend ℕ) ⟨true, false⟩) (fun _ _ => True) k es' k' →
      es' = [] ∧ k'.lockFree = false := by
  obtain ⟨es, k, hrun, hes, hfirst, hdelta, hrem, hphase⟩ := Reaches.of_exec
    (system (backend ℕ) ⟨true, false⟩) (fun _ _ => True)
    [.add 0 0 int64Max 0, .add 1 1 0 0, .announce 0 5]
    (fun es k => es = [.added 0 int64Min, .added 1 1, .announced 5] ∧
      zTimeoutQFirst k.queue = some 0 ∧ k.queue.dticks 0 = int64Min ∧ k.announceRemaining = 5 ∧
      k.phase = .top) (by decide)
  refine ⟨es, k, hrun, hes, by rw [hdelta]; decide, fun es' k' hr => ?_⟩
  obtain ⟨hnil, hb⟩ := (stalls_int64Min 0 k.currTick).run
    ⟨⟨hfirst, hdelta⟩, rfl, by omega, by omega, .inl hphase⟩ hr
  exact ⟨hnil, hb.lockFree⟩

end ZephyrRtos.Timeout.DeltaList
