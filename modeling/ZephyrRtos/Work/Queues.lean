import ZephyrRtos.Work.Changes

namespace ZephyrRtos.Work

open List Function Lib Sched

variable {ω τ κ : Type} [DecidableEq ω] [DecidableEq τ] [DecidableEq κ]

def State.waiting (s : State ω τ κ) (t : τ) : Option (Pc ω κ) :=
  if (s.pc t).waits && !s.sem t then some (s.pc t) else none

/-- The item of a thread that flushes is in one place, and the thread waits for it. -/
structure State.Helpers (s : State ω τ κ) : Prop where
  waits : ∀ t q, .flusher t ∈ s.pending q ∨ s.current q = some (.flusher t) →
    s.waiting t = some .flushing ∧ (s.flags (.flusher t)).flushing
  home : ∀ t q q', .flusher t ∈ s.pending q → .flusher t ∈ s.pending q' → q = q'
  once : ∀ t q q', .flusher t ∈ s.pending q → s.current q' ≠ some (.flusher t)

structure State.Wf (s : State ω τ κ) : Prop where
  nodup : ∀ q, (s.pending q).Nodup
  home : ∀ w q, .work w ∈ s.pending q → s.queue w = some q
  queued : ∀ w, (s.flags (.work w)).queued ↔ ∃ q, .work w ∈ s.pending q
  running : ∀ x, (s.flags x).running ↔ ∃ q, s.current q = some x
  alone : ∀ x q q', s.current q = some x → s.current q' = some x → q = q'
  runsHome : ∀ w q, s.current q = some (.work w) → s.queue w = some q
  stopped : ∀ q, (s.queueFlags q).started = false → s.pending q = [] ∧ s.current q = none
  helpers : s.Helpers
  records : ∀ t w, (t, w) ∈ s.pendingCancels ↔ s.waiting t = some (.cancelling w)
  recordsNodup : s.pendingCancels.Nodup

variable {s s' : State ω τ κ} {a : Action ω τ κ} {es : List (Event τ)} {t : τ} {w : ω} {q : κ}

theorem mem_insertAfter [DecidableEq α] {l : List α} (hx : x ∈ l) :
    z ∈ insertAfter x y l ↔ z = y ∨ z ∈ l := by
  induction l with
  | nil => simp at hx
  | cons v l ih =>
    rw [insertAfter]
    split
    · simp; tauto
    · next hv =>
      have hx' : x ∈ l := (mem_cons.1 hx).resolve_left (Ne.symm hv)
      simp; tauto

theorem nodup_insertAfter [DecidableEq α] {l : List α} (hx : x ∈ l) (hy : y ∉ l) (h : l.Nodup) :
    (insertAfter x y l).Nodup := by
  induction l with
  | nil => simp at hx
  | cons v l ih =>
    rw [insertAfter]
    split
    · simp_all [eq_comm]
    · simp_all [mem_insertAfter, eq_comm]

namespace State

section Fields

variable (s : State ω τ κ) (w : ω) (q p : κ) (x y : Item ω τ) (t : τ) (f : WorkFlags)
  (l : List (Item ω τ)) (pc : Pc ω κ)

@[simp]
theorem setFlags_flags_self : (s.setFlags x f).flags x = f := by simp [setFlags]

@[simp]
theorem setFlags_flags_of_ne (h : y ≠ x) : (s.setFlags x f).flags y = s.flags y := by
  simp [setFlags, h]

@[simp] theorem setFlags_pending : (s.setFlags x f).pending = s.pending := rfl
@[simp] theorem setFlags_current : (s.setFlags x f).current = s.current := rfl
@[simp] theorem setFlags_queue : (s.setFlags x f).queue = s.queue := rfl
@[simp] theorem setFlags_queueFlags : (s.setFlags x f).queueFlags = s.queueFlags := rfl
@[simp] theorem setPending_flags : (s.setPending q l).flags = s.flags := rfl
@[simp] theorem setPending_current : (s.setPending q l).current = s.current := rfl
@[simp] theorem setPending_queue : (s.setPending q l).queue = s.queue := rfl
@[simp] theorem setPending_queueFlags : (s.setPending q l).queueFlags = s.queueFlags := rfl

@[simp]
theorem mem_setPending : x ∈ (s.setPending q l).pending p ↔
    p = q ∧ x ∈ l ∨ p ≠ q ∧ x ∈ s.pending p := by
  obtain rfl | hp := eq_or_ne p q <;> simp [setPending, *]

theorem nodup_setPending (hl : l.Nodup) (h : ∀ q, (s.pending q).Nodup) (p : κ) :
    ((s.setPending q l).pending p).Nodup := by
  obtain rfl | hp := eq_or_ne p q
  · simpa [setPending] using hl
  · simpa [setPending, hp] using h p

end Fields

theorem waiting_eq_none (h : (s.pc t).waits = false ∨ s.sem t) : s.waiting t = none := by
  unfold waiting
  grind

theorem waiting_setPc {pc : Pc ω κ} (h : s.waiting t = none) (hpc : pc.waits = false) :
    (s.setPc t pc).waiting = s.waiting := by
  funext u
  obtain rfl | hu := eq_or_ne u t
  · rw [h]
    exact waiting_eq_none (.inl (by simpa [setPc] using hpc))
  · simp [waiting, setPc, hu]

def idle (s : State ω τ κ) (q : κ) : State ω τ κ :=
  { s with
    current := update s.current q none
    queueFlags := update s.queueFlags q { s.queueFlags q with busy := false } }

theorem idle_finalizeCancel (x : Item ω τ) :
    (s.finalizeCancelLocked x).idle q = (s.idle q).finalizeCancelLocked x := by
  cases hfind : s.pendingCancels.find? fun r => .work r.2 = x with
  | none => simp [finalizeCancelLocked, setFlags, idle, hfind]
  | some r => simp [finalizeCancelLocked, setFlags, idle, hfind]

theorem finishWork_eq (s : State ω τ κ) (q : κ) (x : Item ω τ) : s.finishWork q x =
    let s₁ := (s.setFlags x { s.flags x with running := false }).idle q
    let s₂ := if (s.flags x).flushing then s₁.finalizeFlushLocked x else s₁
    if (s₂.flags x).canceling then s₂.finalizeCancelLocked x else s₂ := by
  have hcancel : ∀ u : State ω τ κ,
      (if (u.flags x).canceling then u.finalizeCancelLocked x else u).idle q =
        if ((u.idle q).flags x).canceling then (u.idle q).finalizeCancelLocked x else u.idle q := by
    intro u
    split
    · next hc => rw [idle_finalizeCancel, if_pos (by exact hc)]
    · next hc => rw [if_neg (by exact hc)]
  have hflush : ∀ u : State ω τ κ,
      (if (u.flags x).flushing then u.finalizeFlushLocked x else u).idle q =
        if (u.flags x).flushing then (u.idle q).finalizeFlushLocked x else u.idle q := by
    intro u
    split
    · cases x <;> rfl
    · rfl
  have hf : ((s.setFlags x { s.flags x with running := false }).flags x).flushing =
      (s.flags x).flushing := by simp
  refine (hcancel _).trans ?_
  rw [hflush, hf]

theorem Helpers.congr (h : s.Helpers)
    (hmem : ∀ t q, .flusher t ∈ s'.pending q ↔ .flusher t ∈ s.pending q)
    (hr : ∀ t q, s'.current q = some (.flusher t) ↔ s.current q = some (.flusher t))
    (hflags : ∀ t, (s'.flags (.flusher t)).flushing = (s.flags (.flusher t)).flushing)
    (hwait : s'.waiting = s.waiting) : s'.Helpers where
  waits t q hx := by
    rw [hmem, hr] at hx
    rw [hflags, hwait]
    exact h.waits t q hx
  home t q q' := by simpa [hmem] using h.home t q q'
  once t q q' := by simpa [hmem, hr] using h.once t q q'

namespace Wf

theorem frame (h : s.Wf) (hp : s'.pending = s.pending) (hr : s'.current = s.current)
    (hq : s'.queue = s.queue) (hc : s'.pendingCancels = s.pendingCancels)
    (hstart : ∀ q, (s'.queueFlags q).started = false → (s.queueFlags q).started = false)
    (hflags : ∀ x, (s'.flags x).queued = (s.flags x).queued ∧
      (s'.flags x).running = (s.flags x).running ∧ (s'.flags x).flushing = (s.flags x).flushing)
    (hwait : s'.waiting = s.waiting) : s'.Wf where
  nodup := hp ▸ h.nodup
  home := hp ▸ hq ▸ h.home
  queued w := by rw [(hflags _).1, hp, h.queued]
  running x := by rw [(hflags _).2.1, hr, h.running]
  alone := hr ▸ h.alone
  runsHome := hr ▸ hq ▸ h.runsHome
  stopped q hs := hp ▸ hr ▸ h.stopped q (hstart q hs)
  helpers := h.helpers.congr (by simp [hp]) (by simp [hr]) (fun _ => (hflags _).2.2) hwait
  records := hc ▸ hwait ▸ h.records
  recordsNodup := hc ▸ h.recordsNodup

theorem setFlags (h : s.Wf) (x : Item ω τ) (f : WorkFlags) (hq : f.queued = (s.flags x).queued)
    (hr : f.running = (s.flags x).running) (hf : f.flushing = (s.flags x).flushing) :
    (s.setFlags x f).Wf := by
  refine h.frame rfl rfl rfl rfl (fun _ => id) (fun y => ?_) rfl
  obtain rfl | hy := eq_or_ne y x
  · simp [hq, hr, hf]
  · simp [hy]

theorem setPc (h : s.Wf) {pc : Pc ω κ} (hw : s.waiting t = none) (hpc : pc.waits = false) :
    (s.setPc t pc).Wf :=
  h.frame rfl rfl rfl rfl (fun _ => id) (fun _ => ⟨rfl, rfl, rfl⟩) (waiting_setPc hw hpc)

theorem notMem (h : s.Wf) (hq : (s.flags (.work w)).queued = false) (q : κ) :
    .work w ∉ s.pending q := fun hm => by
  simp [(h.queued w).2 ⟨q, hm⟩] at hq

theorem place (h : s.Wf) (hq : x ∈ s.pending q) (hp : x ∈ s.pending p) : p = q := by
  cases x with
  | work w => exact Option.some.inj ((h.home w p hp).symm.trans (h.home w q hq))
  | flusher t => exact h.helpers.home t p q hp hq

theorem enqueue (h : s.Wf) (hstart : (s.queueFlags q).started)
    (hq : (s.flags (.work w)).queued = false)
    (hrun : (s.flags (.work w)).running → s.queue w = some q) : (s.enqueue w q).Wf := by
  have hno := h.notMem hq
  have hmem : ∀ x p, x ∈ (s.enqueue w q).pending p ↔ x ∈ s.pending p ∨ p = q ∧ x = .work w := by
    intro x p
    simp only [State.enqueue, setFlags_pending, mem_setPending, mem_append, mem_singleton]
    grind
  have hqueue : ∀ v, (s.enqueue w q).queue v = if v = w then some q else s.queue v := by
    intro v
    simp [State.enqueue, update_apply]
  have hflags : ∀ x, ((s.enqueue w q).flags x).running = (s.flags x).running ∧
      ((s.enqueue w q).flags x).flushing = (s.flags x).flushing ∧
      (((s.enqueue w q).flags x).queued ↔ (s.flags x).queued ∨ x = .work w) := by
    intro x
    obtain rfl | hx := eq_or_ne x (.work w) <;> simp [State.enqueue, *]
  refine ⟨?_, fun v p hv => ?_, fun v => ?_, fun x => ?_, h.alone, fun v p hv => ?_,
    fun p hp => ?_, ?_, h.records, h.recordsNodup⟩
  · refine nodup_setPending _ _ _ ?_ h.nodup
    simpa [nodup_append, h.nodup q] using fun a ha => by rintro rfl; exact hno _ ha
  · have := h.home v p
    grind
  · simp [hmem, hflags, h.queued, exists_or]
  · rw [(hflags x).1]
    exact h.running x
  · have := h.runsHome v p hv
    have := (h.running (.work v)).2 ⟨p, hv⟩
    grind
  · obtain rfl | hpq := eq_or_ne p q
    · simp [State.enqueue, hstart] at hp
    · simpa [State.enqueue, setPending, hpq] using h.stopped p hp
  · exact h.helpers.congr (by simp [hmem]) (fun _ _ => .rfl) (fun _ => (hflags _).2.1) rfl

theorem mem_unlink (h : s.Wf) {x : Item ω τ} {l : List (Item ω τ)} (hx : x ∈ s.pending q)
    (hl : ∀ y, y ∈ l ↔ y ∈ s.pending q ∧ y ≠ x) (y : Item ω τ) (p : κ) :
    p = q ∧ y ∈ l ∨ p ≠ q ∧ y ∈ s.pending p ↔ y ∈ s.pending p ∧ y ≠ x := by
  have hplace := fun hp => h.place (p := p) hx hp
  grind

theorem dequeue (h : s.Wf) (hqd : (s.flags (.work w)).queued) (hw : s.queue w = some q) :
    ((s.setFlags (.work w) { s.flags (.work w) with queued := false }).setPending q
      ((s.pending q).erase (.work w))).Wf := by
  have hin : .work w ∈ s.pending q := by
    obtain ⟨p, hp⟩ := (h.queued w).1 hqd
    rwa [Option.some.inj ((h.home w p hp).symm.trans hw)] at hp
  have hmem := h.mem_unlink hin fun y => by rw [(h.nodup q).mem_erase_iff, and_comm]
  refine ⟨nodup_setPending _ _ _ ((h.nodup q).erase _) h.nodup, fun v p hv => ?_, fun v => ?_,
    fun x => ?_, h.alone, h.runsHome, fun p hp => ?_, ?_, h.records, h.recordsNodup⟩
  · simp only [mem_setPending, setFlags_pending, hmem] at hv
    exact h.home v p hv.1
  · simp only [mem_setPending, setFlags_pending, hmem, setPending_flags]
    obtain rfl | hv := eq_or_ne v w
    · simp
    · simp [hv, h.queued]
  · obtain rfl | hx := eq_or_ne x (.work w)
    · simpa using h.running _
    · simpa [hx] using h.running x
  · have := h.stopped p hp
    obtain rfl | hpq := eq_or_ne p q
    · simp [this] at hin
    · simpa [setPending, hpq] using this
  · refine h.helpers.congr (fun t p => ?_) (fun _ _ => .rfl) fun _ => by simp rfl
    simp only [mem_setPending, setFlags_pending, hmem]
    simp

theorem take (h : s.Wf) {x : Item ω τ} {l : List (Item ω τ)} (hf : f.started)
    (hidle : s.current q = none) (hp : s.pending q = x :: l)
    (hs : s' = { (s.setFlags x
        { s.flags x with running := true, queued := false }).setPending q l with
      current := update s.current q (some x)
      queueFlags := update s.queueFlags q f }) : s'.Wf := by
  have hin : x ∈ s.pending q := by simp [hp]
  have hnd : x ∉ l ∧ l.Nodup := by simpa [hp] using h.nodup q
  have hmem : ∀ y p, y ∈ s'.pending p ↔ y ∈ s.pending p ∧ y ≠ x := fun y p => by
    rw [hs, mem_setPending]
    exact h.mem_unlink hin (fun z => by rw [hp]; grind) y p
  -- nobody runs an item that is on a list, but for the thread of that list
  have hnot : ∀ p, s.current p ≠ some x := fun p hx => by
    cases x with
    | work w =>
      have : p = q := Option.some.inj ((h.runsHome w p hx).symm.trans (h.home w q hin))
      simp [this, hidle] at hx
    | flusher t => exact h.helpers.once t q p hin hx
  have hcur : ∀ p y, s'.current p = some y ↔ p = q ∧ y = x ∨ s.current p = some y := by
    intro p y
    obtain rfl | hpq := eq_or_ne p q
    · simp [hs, hidle, eq_comm]
    · simp [hs, hpq]
  have hflags : ∀ y, ((s'.flags y).running ↔ y = x ∨ (s.flags y).running) ∧
      ((s'.flags y).queued ↔ y ≠ x ∧ (s.flags y).queued) ∧
      (s'.flags y).flushing = (s.flags y).flushing := by
    intro y
    obtain rfl | hy := eq_or_ne y x
    · simp [hs]
    · simp [hs, hy]
  have hqueue : s'.queue = s.queue := by rw [hs]; rfl
  have hwait : s'.waiting = s.waiting := by rw [hs]; rfl
  refine ⟨?_, fun v p hv => ?_, fun v => ?_, fun y => ?_, fun y p p' hy hy' => ?_, fun v p hv => ?_,
    fun p hstop => ?_, ⟨fun t p ht => ?_, fun t p p' ht ht' => ?_, fun t p p' ht ht' => ?_⟩, ?_, ?_⟩
  · rw [hs]
    exact nodup_setPending _ _ _ hnd.2 h.nodup
  · rw [hqueue]
    exact h.home v p ((hmem _ _).1 hv).1
  · simp only [hflags, h.queued]
    grind
  · simp only [hflags, hcur, h.running, exists_or]
    simp
  · have := h.alone y p p'
    grind
  · have := h.home v q
    have := h.runsHome v p
    grind
  · have hpq : p ≠ q := by
      rintro rfl
      simp [hs, hf] at hstop
    simpa [hs, setPending, hpq] using h.stopped p (by simpa [hs, hpq] using hstop)
  · rw [hwait, (hflags _).2.2]
    obtain hm | hr := ht
    · exact h.helpers.waits t p (.inl ((hmem _ _).1 hm).1)
    · obtain ⟨rfl, hx⟩ | hr := (hcur _ _).1 hr
      · exact h.helpers.waits t p (.inl (hx ▸ hin))
      · exact h.helpers.waits t p (.inr hr)
  · exact h.helpers.home t p p' ((hmem _ _).1 ht).1 ((hmem _ _).1 ht').1
  · have := h.helpers.once t p p'
    grind
  · rw [hs]
    exact h.records
  · rw [hs]
    exact h.recordsNodup

theorem start (h : s.Wf) (hq : (s.queueFlags q).started = false) :
    State.Wf { s.setPending q [] with queueFlags := update s.queueFlags q f } := by
  have hp : (s.setPending q []).pending = s.pending := by
    rw [setPending, ← (h.stopped q hq).1, update_eq_self]
  refine h.frame hp rfl rfl rfl (fun p hs => ?_) (fun _ => ⟨rfl, rfl, rfl⟩) rfl
  obtain rfl | hpq := eq_or_ne p q
  · exact hq
  · simpa [hpq] using hs

theorem started (h : s.Wf) (hq : s.queue w = some q)
    (hw : (s.flags (.work w)).queued ∨ (s.flags (.work w)).running) :
    (s.queueFlags q).started := by
  by_contra hs
  obtain ⟨hnil, hidle⟩ := h.stopped q (by simpa using hs)
  obtain hw | hw := hw
  · obtain ⟨p, hp⟩ := (h.queued w).1 hw
    obtain rfl : p = q := Option.some.inj ((h.home w p hp).symm.trans hq)
    simp [hnil] at hp
  · obtain ⟨p, hp⟩ := (h.running _).1 hw
    obtain rfl : p = q := Option.some.inj ((h.runsHome w p hp).symm.trans hq)
    simp [hidle] at hp

theorem nowhere (h : s.Wf) (ht : s.waiting t = none) (q : κ) :
    .flusher t ∉ s.pending q ∧ s.current q ≠ some (.flusher t) := by
  have := h.helpers.waits t q
  grind

theorem flushed (h : s.Wf) (ht : s.waiting t = none) (hq : s.queue w = some q) :
    ∃ l, s.queueFlusherLocked q w t =
      { (s.setFlags (.flusher t) { WorkFlags.zero with flushing := true }).setPending q l with
        sem := update s.sem t false } ∧
      l.Nodup ∧ ∀ x, x ∈ l ↔ x = .flusher t ∨ x ∈ s.pending q := by
  have hno := (h.nowhere ht q).1
  unfold queueFlusherLocked
  dsimp only
  split
  · next hqd =>
    have hin : .work w ∈ s.pending q := by
      obtain ⟨p, hp⟩ := (h.queued w).1 (by simpa using hqd)
      rwa [Option.some.inj ((h.home w p hp).symm.trans hq)] at hp
    exact ⟨_, rfl, nodup_insertAfter hin hno (h.nodup q), fun x => mem_insertAfter hin⟩
  · exact ⟨_, rfl, nodup_cons.2 ⟨hno, h.nodup q⟩, fun x => mem_cons⟩

theorem waitFlush (h : s.Wf) (ht : s.waiting t = none)
    (hw : (s.flags (.work w)).queued ∨ (s.flags (.work w)).running) (hq : s.queue w = some q)
    (hs : s' = (s.queueFlusherLocked q w t).setPc t .flushing) : s'.Wf := by
  have hno := h.nowhere ht
  have hstart := h.started hq hw
  obtain ⟨l, heq, hnd, hl⟩ := h.flushed ht hq
  rw [heq] at hs
  have hmem : ∀ x p, x ∈ s'.pending p ↔ x ∈ s.pending p ∨ p = q ∧ x = .flusher t := by
    simp only [hs, State.setPc, mem_setPending, setFlags_pending]
    grind
  have hflags : ∀ x, x ≠ .flusher t → s'.flags x = s.flags x := by
    intro x hx
    simp [hs, State.setPc, hx]
  have hself : s'.flags (.flusher t) = { WorkFlags.zero with flushing := true } := by
    simp [hs, State.setPc]
  have hwait : ∀ u, s'.waiting u = if u = t then some .flushing else s.waiting u := by
    intro u
    obtain rfl | hu := eq_or_ne u t
    · simp [hs, waiting, State.setPc, Pc.waits]
    · simp [hs, waiting, State.setPc, State.setFlags, setPending, hu]
  have hcur : s'.current = s.current := by rw [hs]; rfl
  have hqueue : s'.queue = s.queue := by rw [hs]; rfl
  refine ⟨?_, fun v p hv => ?_, fun v => ?_, fun x => ?_, hcur ▸ h.alone, hcur ▸ hqueue ▸ h.runsHome,
    fun p hstop => ?_, ⟨fun u p hu => ?_, fun u p p' hu hu' => ?_, fun u p p' hu hu' => ?_⟩,
    fun u v => ?_, ?_⟩
  · rw [hs]
    exact nodup_setPending _ _ _ hnd h.nodup
  · rw [hqueue]
    exact h.home v p (by simpa [hmem] using hv)
  · simp [hflags, hmem, h.queued]
  · obtain rfl | hx := eq_or_ne x (.flusher t)
    · simp [hself, hcur, WorkFlags.zero, hno]
    · rw [hflags x hx, hcur]
      exact h.running x
  · have hpq : p ≠ q := by
      rintro rfl
      simp [hs, State.setPc, hstart] at hstop
    simpa [hs, State.setPc, setPending, hpq] using
      h.stopped p (by simpa [hs, State.setPc] using hstop)
  · obtain rfl | hut := eq_or_ne u t
    · simp [hwait, hself]
    · rw [hwait, if_neg hut, hflags _ (by simpa using hut)]
      exact h.helpers.waits u p (by simpa [hmem, hcur, hut] using hu)
  · have := h.helpers.home u p p'
    grind
  · have := h.helpers.once u p p'
    have := hno p'
    grind
  · rw [hwait, show s'.pendingCancels = s.pendingCancels by rw [hs]; rfl, h.records]
    grind
  · rw [hs]
    exact h.recordsNodup

theorem stopRunning (h : s.Wf) (hx : s.current q = some x)
    (hs : s' = (s.setFlags x { s.flags x with running := false }).idle q) : s'.Wf := by
  have hcur : ∀ p y, s'.current p = some y ↔ s.current p = some y ∧ y ≠ x := by
    intro p y
    have := h.alone x q p hx
    obtain rfl | hpq := eq_or_ne p q
    · simp [hs, idle, hx, eq_comm]
    · simp only [hs, idle, setFlags_current]
      grind
  have hflags : ∀ y, ((s'.flags y).running ↔ (s.flags y).running ∧ y ≠ x) ∧
      (s'.flags y).queued = (s.flags y).queued ∧
      (s'.flags y).flushing = (s.flags y).flushing := by
    intro y
    obtain rfl | hy := eq_or_ne y x
    · simp [hs, idle]
    · simp [hs, idle, hy]
  have hp : s'.pending = s.pending := by rw [hs]; rfl
  have hqueue : s'.queue = s.queue := by rw [hs]; rfl
  have hwait : s'.waiting = s.waiting := by rw [hs]; rfl
  refine ⟨hp ▸ h.nodup, hp ▸ hqueue ▸ h.home, fun v => ?_, fun y => ?_, fun y p p' hy hy' => ?_,
    fun v p hv => ?_, fun p hstop => ?_, ⟨fun t p ht => ?_, hp ▸ h.helpers.home,
    fun t p p' ht ht' => ?_⟩, ?_, ?_⟩
  · rw [(hflags _).2.1, hp, h.queued]
  · simp only [hflags, hcur, h.running, exists_and_right]
  · exact h.alone y p p' ((hcur _ _).1 hy).1 ((hcur _ _).1 hy').1
  · rw [hqueue]
    exact h.runsHome v p ((hcur _ _).1 hv).1
  · have hstop' : (s.queueFlags p).started = false := by
      obtain rfl | hpq := eq_or_ne p q
      · simpa [hs, idle] using hstop
      · simpa [hs, idle, hpq] using hstop
    obtain ⟨hnil, hidle⟩ := h.stopped p hstop'
    refine ⟨by rw [hp, hnil], ?_⟩
    rw [Option.eq_none_iff_forall_ne_some]
    intro y hy
    simp [((hcur _ _).1 hy).1] at hidle
  · rw [hwait, (hflags _).2.2]
    rw [hp, hcur] at ht
    exact h.helpers.waits t p (ht.imp_right And.left)
  · exact h.helpers.once t p p' (hp ▸ ht) ((hcur _ _).1 ht').1
  · rw [hs]
    exact h.records
  · rw [hs]
    exact h.recordsNodup

theorem giveFlush (h : s.Wf) (hno : ∀ q, .flusher t ∉ s.pending q ∧ s.current q ≠ some (.flusher t))
    (ht : s.waiting t = some .flushing)
    (hs : s' = { s.setFlags (.flusher t) { s.flags (.flusher t) with flushing := false } with
      sem := update s.sem t true }) : s'.Wf := by
  have hwait : ∀ u, s'.waiting u = if u = t then none else s.waiting u := by
    intro u
    obtain rfl | hu := eq_or_ne u t
    · simp [hs, waiting]
    · simp [hs, waiting, State.setFlags, hu]
  have hflags : ∀ y, (s'.flags y).running = (s.flags y).running ∧
      (s'.flags y).queued = (s.flags y).queued ∧
      (y ≠ .flusher t → (s'.flags y).flushing = (s.flags y).flushing) := by
    intro y
    obtain rfl | hy := eq_or_ne y (.flusher t)
    · simp [hs]
    · simp [hs, hy]
  have hp : s'.pending = s.pending := by rw [hs]; rfl
  have hcur : s'.current = s.current := by rw [hs]; rfl
  have hqueue : s'.queue = s.queue := by rw [hs]; rfl
  refine ⟨hp ▸ h.nodup, hp ▸ hqueue ▸ h.home, fun v => ?_, fun y => ?_, hcur ▸ h.alone,
    hcur ▸ hqueue ▸ h.runsHome, ?_, ⟨fun u p hu => ?_, hp ▸ h.helpers.home,
    hp ▸ hcur ▸ h.helpers.once⟩, fun u v => ?_, ?_⟩
  · rw [(hflags _).2.1, hp, h.queued]
  · rw [(hflags _).1, hcur, h.running]
  · rw [hs]
    exact h.stopped
  · have hut : u ≠ t := by
      rintro rfl
      rw [hp, hcur] at hu
      exact hu.elim (hno p).1 (hno p).2
    rw [hwait, if_neg hut, (hflags _).2.2 (by simpa using hut)]
    exact h.helpers.waits u p (by rwa [hp, hcur] at hu)
  · rw [hwait, show s'.pendingCancels = s.pendingCancels by rw [hs]; rfl, h.records]
    grind
  · rw [hs]
    exact h.recordsNodup

theorem clearFlushing (h : s.Wf) :
    (s.setFlags (.work w) { s.flags (.work w) with flushing := false }).Wf := by
  refine ⟨h.nodup, h.home, fun v => ?_, fun x => ?_, h.alone, h.runsHome, h.stopped,
    h.helpers.congr (fun _ _ => .rfl) (fun _ _ => .rfl) fun _ => by simp rfl, h.records,
    h.recordsNodup⟩
  · obtain rfl | hv := eq_or_ne v w
    · simpa using h.queued v
    · simpa [hv] using h.queued v
  · obtain rfl | hx := eq_or_ne x (.work w)
    · simpa using h.running _
    · simpa [hx] using h.running x

theorem giveCancel (h : s.Wf) (ht : (t, w) ∈ s.pendingCancels) :
    State.Wf { s with
      pendingCancels := s.pendingCancels.erase (t, w)
      sem := update s.sem t true } := by
  have htw := (h.records t w).1 ht
  have hwait : ∀ u, State.waiting { s with
      pendingCancels := s.pendingCancels.erase (t, w)
      sem := update s.sem t true } u = if u = t then none else s.waiting u := by
    intro u
    obtain rfl | hu := eq_or_ne u t
    · simp [waiting]
    · simp [waiting, hu]
  refine ⟨h.nodup, h.home, h.queued, h.running, h.alone, h.runsHome, h.stopped,
    ⟨fun u p hu => ?_, h.helpers.home, h.helpers.once⟩, fun u v => ?_, h.recordsNodup.erase _⟩
  · obtain ⟨hu', hf⟩ := h.helpers.waits u p hu
    have hut : u ≠ t := by
      rintro rfl
      simp [hu'] at htw
    rw [hwait, if_neg hut]
    exact ⟨hu', hf⟩
  · rw [hwait, h.recordsNodup.mem_erase_iff, h.records]
    grind

theorem finalizeCancelLocked (h : s.Wf) (x : Item ω τ) : (s.finalizeCancelLocked x).Wf := by
  have h₁ := h.setFlags x { s.flags x with canceling := false } rfl rfl rfl
  unfold State.finalizeCancelLocked
  dsimp only
  split
  · next t w hfind => exact h₁.giveCancel (mem_of_find?_eq_some hfind)
  · exact h₁

theorem finalizeCanceling (h : s.Wf) (x : Item ω τ) :
    (if (s.flags x).canceling then s.finalizeCancelLocked x else s).Wf := by
  split
  · exact h.finalizeCancelLocked x
  · exact h

theorem finishWork (h : s.Wf) (hx : s.current q = some x) : (s.finishWork q x).Wf := by
  rw [finishWork_eq]
  have h₁ : ((s.setFlags x { s.flags x with running := false }).idle q).Wf := h.stopRunning hx rfl
  have h₂ : (if (s.flags x).flushing then
      ((s.setFlags x { s.flags x with running := false }).idle q).finalizeFlushLocked x else
      (s.setFlags x { s.flags x with running := false }).idle q).Wf := by
    split
    · cases x with
      | work w => exact h₁.clearFlushing
      | flusher t =>
        refine h₁.giveFlush (fun p => ⟨fun hp => ?_, fun hp => ?_⟩)
          (h.helpers.waits t q (.inr hx)).1 rfl
        · exact h.helpers.once t p q hp hx
        · simpa [idle] using ((h₁.running (.flusher t)).2 ⟨p, hp⟩)
    · exact h₁
  exact h₂.finalizeCanceling x

theorem waitCancel (h : s.Wf) (ht : s.waiting t = none)
    (hs : s' = { s with
      sem := update s.sem t false
      pendingCancels := s.pendingCancels ++ [(t, w)] }.setPc t (.cancelling w)) : s'.Wf := by
  have hwait : ∀ u, s'.waiting u = if u = t then some (.cancelling w) else s.waiting u := by
    intro u
    obtain rfl | hu := eq_or_ne u t
    · simp [hs, waiting, State.setPc, Pc.waits]
    · simp [hs, waiting, State.setPc, hu]
  have hno : ∀ v, (t, v) ∉ s.pendingCancels := by simp [h.records, ht]
  have hp : s'.pending = s.pending := by rw [hs]; rfl
  have hcur : s'.current = s.current := by rw [hs]; rfl
  have hflags : s'.flags = s.flags := by rw [hs]; rfl
  have hrec : s'.pendingCancels = s.pendingCancels ++ [(t, w)] := by rw [hs]; rfl
  refine ⟨hp ▸ h.nodup, ?_, hp ▸ hflags ▸ h.queued, hcur ▸ hflags ▸ h.running, hcur ▸ h.alone, ?_, ?_,
    ⟨fun u p hu => ?_, hp ▸ h.helpers.home, hp ▸ hcur ▸ h.helpers.once⟩, fun u v => ?_, ?_⟩
  · rw [hs]
    exact h.home
  · rw [hs]
    exact h.runsHome
  · rw [hs]
    exact h.stopped
  · rw [hp, hcur] at hu
    obtain ⟨hu', hf⟩ := h.helpers.waits u p hu
    have hut : u ≠ t := by
      rintro rfl
      simp [ht] at hu'
    rw [hwait, if_neg hut, hflags]
    exact ⟨hu', hf⟩
  · have := h.records u v
    grind
  · rw [hrec, nodup_append]
    refine ⟨h.recordsNodup, by simp, fun r hr r' hr' => ?_⟩
    rintro rfl
    rw [mem_singleton.1 hr'] at hr
    exact hno w hr

theorem change (h : s.Wf) (hc : Change s s') : s'.Wf := by
  cases hc with
  | enqueue hstart _ hq hrun => exact h.enqueue hstart hq hrun
  | dequeue hq hw => exact h.dequeue hq hw
  | @dequeueLost w hq hw =>
    obtain ⟨p, hp⟩ := (h.queued w).1 hq
    simp [h.home w p hp] at hw
  | cancel => exact h.setFlags _ _ rfl rfl rfl
  | waitCancel hpc _ => exact h.waitCancel (waiting_eq_none (.inl hpc)) rfl
  | waitFlush hpc hw hq => exact h.waitFlush (waiting_eq_none (.inl hpc)) hw hq rfl
  | @waitFlushLost w t _ hw hq =>
    obtain hw | hw := hw
    · obtain ⟨p, hp⟩ := (h.queued w).1 hw
      simp [h.home w p hp] at hq
    · obtain ⟨p, hp⟩ := (h.running _).1 hw
      simp [h.runsHome w p hp] at hq
  | goOn hpc hpc' => exact h.setPc (waiting_eq_none (.inl hpc)) hpc'
  | @woken t hpc hsem =>
    refine h.frame rfl rfl rfl rfl (fun _ => id) (fun _ => ⟨rfl, rfl, rfl⟩) (funext fun u => ?_)
    obtain rfl | hu := eq_or_ne u t
    · rw [waiting_eq_none (.inr hsem)]
      exact waiting_eq_none (.inl (by simp [State.setPc, Pc.waits]))
    · simp [waiting, State.setPc, hu]
  | @drained q f hf =>
    refine h.frame rfl rfl rfl rfl (fun p hs => ?_) (fun _ => ⟨rfl, rfl, rfl⟩) (funext fun u => ?_)
    · obtain rfl | hpq := eq_or_ne p q
      · simpa [hf] using hs
      · simpa [hpq] using hs
    · by_cases hu : s.pc u = .draining q
      · simp [waiting, hu, Pc.waits]
      · simp [waiting, hu]
  | @queueFlags q f hf =>
    refine h.frame rfl rfl rfl rfl (fun p hs => ?_) (fun _ => ⟨rfl, rfl, rfl⟩) rfl
    obtain rfl | hpq := eq_or_ne p q
    · simpa [hf] using hs
    · simpa [hpq] using hs
  | start _ hq => exact h.start hq
  | take _ hf hidle hp => exact h.take hf hidle hp rfl
  | @delayed w b =>
    exact (h.setFlags (.work w) { s.flags (.work w) with delayed := b } rfl rfl rfl).frame
      rfl rfl rfl rfl (fun _ => id) (fun _ => ⟨rfl, rfl, rfl⟩) rfl
  | timeout => exact h.frame rfl rfl rfl rfl (fun _ => id) (fun _ => ⟨rfl, rfl, rfl⟩) rfl

theorem changes (h : s.Wf) (hc : Changes s s') : s'.Wf := by
  induction hc with
  | refl => exact h
  | tail _ hc ih => exact ih.change hc

theorem step (h : s.Wf) (hs : s.step delayable a = some (s', es)) : s'.Wf := by
  obtain ⟨q, x, -, hx, rfl⟩ | hc := changes_of_step hs
  · exact h.finishWork hx
  · exact h.changes hc

theorem init : (State.init : State ω τ κ).Wf :=
  ⟨by simp [State.init], by simp [State.init], by simp [State.init, WorkFlags.zero],
    by simp [State.init, WorkFlags.zero], by simp [State.init], by simp [State.init],
    by simp [State.init], ⟨by simp [State.init], by simp [State.init], by simp [State.init]⟩,
    by simp [State.init, waiting, Pc.waits], by simp [State.init]⟩

end Wf

end State

theorem reaches_wf (h : Reaches (workQueues delayable) ok es s) : s.Wf :=
  h.invariant (I := fun _ s => s.Wf) .init fun _ _ _ _ _ hi _ hs => hi.step hs

/-- An item is on one list at most, once, with its QUEUED bit set; it runs on one thread at most,
with its RUNNING bit set; and one that does both waits for the thread that runs it. -/
theorem work_queues_consistent {delayable : ω → Bool}
    (h : Reaches (workQueues delayable) (fun _ _ => True) es s) :
    (∀ q, (s.pending q).Nodup) ∧
    (∀ x q q', x ∈ s.pending q → x ∈ s.pending q' → q = q') ∧
    (∀ w, (∃ q, .work w ∈ s.pending q) ↔ (s.flags (.work w)).queued) ∧
    (∀ x q q', s.current q = some x → s.current q' = some x → q = q') ∧
    (∀ x, (∃ q, s.current q = some x) ↔ (s.flags x).running) ∧
    ∀ w q, (s.flags (.work w)).queued → s.current q = some (.work w) → .work w ∈ s.pending q := by
  have hwf := reaches_wf h
  refine ⟨hwf.nodup, fun x q q' hq hq' => hwf.place hq' hq, fun w => (hwf.queued w).symm, hwf.alone,
    fun x => (hwf.running x).symm, fun w q hqd hrun => ?_⟩
  obtain ⟨p, hp⟩ := (hwf.queued w).1 hqd
  rwa [Option.some.inj ((hwf.home w p hp).symm.trans (hwf.runsHome w q hrun))] at hp

theorem work_queues_consistent_resubmitted : ∃ es s,
    Reaches (workQueues fun _ : Fin 1 => false) (fun _ _ => True) es s ∧
    s.pending (0 : Fin 2) = [.work 0, .flusher (1 : Fin 2)] ∧ s.current 0 = some (.work 0) ∧
    ∀ q, .work 0 ∈ s.pending q → q = 0 := by
  obtain ⟨es, s, hrun, hp, hc⟩ := Reaches.of_exec
    (workQueues (τ := Fin 2) (κ := Fin 2) fun _ : Fin 1 => false) (fun _ _ => True)
    [.start 0, .start 1, .submit 0 none (some 0) 0, .queueThread 0, .submit 0 none (some 1) 0,
      .flush 1 0]
    (fun _ s => s.pending 0 = [.work 0, .flusher 1] ∧ s.current 0 = some (.work 0))
    (by decide +kernel)
  obtain ⟨-, hplace, -⟩ := work_queues_consistent hrun
  exact ⟨es, s, hrun, hp, hc, fun q hq => hplace _ q 0 hq (by simp [hp])⟩

end ZephyrRtos.Work
