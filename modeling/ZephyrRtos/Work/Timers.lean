import ZephyrRtos.Work.Changes

namespace ZephyrRtos.Work

open Function Lib Sched

@[ext]
structure Timers (ω : Type) where
  delayed : ω → Bool
  timeoutQ : ω → Bool
  inflight : Option (ω × Bool)

/-- The item whose handler a caller waits for in `unschedule_locked`. -/
def Pc.window {ω κ : Type} : Pc ω κ → Option ω
  | .unscheduling w _ _ => some w
  | .outside | .flushing | .cancelling _ | .draining _ | .drained => none

variable {ω τ κ : Type}

def State.timers (s : State ω τ κ) : Timers ω where
  delayed w := (s.flags (.work w)).delayed
  timeoutQ := s.timeoutQ
  inflight := s.inflight

def State.window (s : State ω τ κ) (t : τ) : Option ω := (s.pc t).window

/-- The bit is set while a timeout is to come, but for one whose handler is on its way and that a
caller has claimed. -/
structure Timed (T : Timers ω) (window : τ → Option ω) : Prop where
  delayed : ∀ w, T.delayed w ↔ T.timeoutQ w ∨ T.inflight = some (w, false) ∧ ∀ t, window t ≠ some w
  claimed : ∀ t w, window t = some w → T.timeoutQ w = false
  alone : ∀ t u w, window t = some w → window u = some w → t = u
  once : ∀ w, T.inflight = some (w, false) → T.timeoutQ w = false

namespace Timed

variable [DecidableEq ω] [DecidableEq τ] {T : Timers ω} {window : τ → Option ω} {t : τ} {w : ω}

section

variable (h : Timed T window)
include h

section

omit [DecidableEq τ]

theorem arm (hfree : ∀ t, window t ≠ some w) (hd : T.delayed w = false) :
    Timed { T with
      delayed := update T.delayed w true
      timeoutQ := update T.timeoutQ w true } window := by
  have hnot : T.inflight ≠ some (w, false) := fun hin => by
    simp [(h.delayed w).2 (.inr ⟨hin, hfree⟩)] at hd
  refine ⟨fun v => ?_, fun t v hv => ?_, h.alone, fun v hv => ?_⟩
  · obtain rfl | hvw := eq_or_ne v w
    · simp
    · simpa [hvw] using h.delayed v
  · obtain rfl | hvw := eq_or_ne v w
    · exact absurd hv (hfree t)
    · simpa [hvw] using h.claimed t v hv
  · obtain rfl | hvw := eq_or_ne v w
    · exact absurd hv hnot
    · simpa [hvw] using h.once v hv

theorem abort (ht : T.timeoutQ w) :
    Timed { T with
      delayed := update T.delayed w false
      timeoutQ := update T.timeoutQ w false } window := by
  have hnot : T.inflight ≠ some (w, false) := fun hin => by simp [h.once w hin] at ht
  refine ⟨fun v => ?_, fun t v hv => ?_, h.alone, fun v hv => ?_⟩
  · obtain rfl | hvw := eq_or_ne v w
    · simp [hnot]
    · simpa [hvw] using h.delayed v
  · obtain rfl | hvw := eq_or_ne v w
    · simp
    · simpa [hvw] using h.claimed t v hv
  · obtain rfl | hvw := eq_or_ne v w
    · simp
    · simpa [hvw] using h.once v hv

end

theorem inflight_of_delayed (hd : T.delayed w) (ht : T.timeoutQ w = false) :
    T.inflight = some (w, false) ∧ ∀ t, window t ≠ some w :=
  ((h.delayed w).1 hd).resolve_left (by simp [ht])

theorem claim (hd : T.delayed w) (ht : T.timeoutQ w = false) (hout : window t = none) :
    Timed { T with delayed := update T.delayed w false }
      (update window t (some w)) := by
  obtain ⟨-, hfree⟩ := h.inflight_of_delayed hd ht
  have hwin : ∀ u v, update window t (some w) u = some v ↔
      u = t ∧ v = w ∨ window u = some v := by
    intro u v
    obtain rfl | hu := eq_or_ne u t
    · simp [hout, eq_comm]
    · simp [hu]
  refine ⟨fun v => ?_, fun u v hv => ?_, fun u u' v hu hu' => ?_, h.once⟩
  · simp only [ne_eq, hwin]
    obtain rfl | hvw := eq_or_ne v w
    · simpa [ht] using fun _ => ⟨t, by simp⟩
    · simpa [hvw] using h.delayed v
  · obtain ⟨-, rfl⟩ | hv := (hwin u v).1 hv
    · exact ht
    · exact h.claimed u v hv
  · have := h.alone u u' v
    grind

theorem leave (hw : window t = some w) (hin : T.inflight ≠ some (w, false)) :
    Timed T (update window t none) := by
  have hwin : ∀ u v, update window t none u = some v ↔ u ≠ t ∧ window u = some v := by
    intro u v
    obtain rfl | hu := eq_or_ne u t <;> simp [*]
  refine ⟨fun v => ?_, fun u v hv => h.claimed u v ((hwin u v).1 hv).2,
    fun u u' v hu hu' => h.alone u u' v ((hwin _ _).1 hu).2 ((hwin _ _).1 hu').2, h.once⟩
  rw [h.delayed]
  obtain rfl | hvw := eq_or_ne v w
  · simp [hin]
  · simp only [ne_eq, hwin]
    grind

section

omit [DecidableEq τ]

theorem expire (ht : T.timeoutQ w) (hin : T.inflight = none) :
    Timed { T with
      timeoutQ := update T.timeoutQ w false
      inflight := some (w, false) } window := by
  have hfree : ∀ t, window t ≠ some w := fun t hw => by simp [h.claimed t w hw] at ht
  refine ⟨fun v => ?_, fun t v hv => ?_, h.alone, fun v hv => ?_⟩
  · obtain rfl | hvw := eq_or_ne v w
    · simpa [(h.delayed v).2 (.inl ht)] using hfree
    · simpa [hvw, hvw.symm, hin] using h.delayed v
  · obtain rfl | hvw := eq_or_ne v w
    · simp
    · simpa [hvw] using h.claimed t v hv
  · obtain rfl : w = v := by simpa using hv
    simp

theorem handle (hin : T.inflight = some (w, false)) :
    Timed { T with
      delayed := update T.delayed w false
      inflight := some (w, true) } window := by
  have ht := h.once w hin
  refine ⟨fun v => ?_, h.claimed, h.alone, nofun⟩
  obtain rfl | hvw := eq_or_ne v w
  · simp [ht]
  · have := h.delayed v
    simp only [hin] at this
    simpa [hvw, hvw.symm] using this

end

theorem handlerReturn (hin : T.inflight = some (w, true)) :
    Timed { T with inflight := none } window := by
  refine ⟨fun v => ?_, h.claimed, h.alone, nofun⟩
  have := h.delayed v
  simp only [hin] at this
  simpa using this

end

end Timed

namespace State

variable [DecidableEq ω] [DecidableEq τ] [DecidableEq κ] {s s' : State ω τ κ} {t : τ} {w : ω}

section

omit [DecidableEq κ]

theorem timers_setFlags (s : State ω τ κ) (x : Item ω τ) (f : WorkFlags)
    (hf : f.delayed = (s.flags x).delayed) : (s.setFlags x f).timers = s.timers := by
  have hd : (s.setFlags x f).timers.delayed = s.timers.delayed := by
    funext v
    obtain rfl | hx := eq_or_ne (.work v) x
    · simpa [timers, setFlags] using hf
    · simp [timers, setFlags, hx]
  exact Timers.ext hd rfl rfl

theorem timers_setDelayed (s : State ω τ κ) (w : ω) (b : Bool) :
    (s.setFlags (.work w) { s.flags (.work w) with delayed := b }).timers =
      { s.timers with delayed := update s.timers.delayed w b } := by
  have hd : ∀ v, ((s.setFlags (.work w) { s.flags (.work w) with delayed := b }).flags
      (.work v)).delayed = update s.timers.delayed w b v := by
    intro v
    obtain rfl | hv := eq_or_ne v w
    · simp [setFlags]
    · simp [timers, setFlags, hv]
  exact Timers.ext (funext hd) rfl rfl

end

variable (s)

@[simp]
theorem timers_submit (caller queue : Option κ) (w : ω) :
    (s.submitToQueueLocked caller w queue).1.timers = s.timers := by
  obtain h | ⟨q, -, -, -, -, h⟩ := s.submit_cases caller queue w
  · rw [h]
  · rw [h]
    exact s.timers_setFlags (.work w) { s.flags (.work w) with queued := true } rfl

@[simp]
theorem timers_queueRemove (w : ω) : (s.queueRemoveLocked w).timers = s.timers := by
  have hf := s.timers_setFlags (.work w) { s.flags (.work w) with queued := false } rfl
  unfold queueRemoveLocked
  dsimp only
  split
  · split <;> exact hf
  · rfl

@[simp]
theorem timers_cancel (w : ω) : (s.cancelAsyncLocked w).1.timers = s.timers := by
  obtain ⟨s₁, hs₁, h⟩ := s.cancel_cases w
  have h₁ : s₁.timers = s.timers := by
    obtain rfl | rfl := hs₁
    · rfl
    · simp
  obtain h | h := h
  · rw [h, h₁]
  · rw [h, timers_setFlags s₁ (.work w) { s₁.flags (.work w) with canceling := true } rfl, h₁]

@[simp]
theorem timers_setPc (pc : Pc ω κ) : (s.setPc t pc).timers = s.timers := rfl

theorem window_setPc (pc : Pc ω κ) : (s.setPc t pc).window = update s.window t pc.window := by
  funext u
  obtain rfl | hu := eq_or_ne u t
  · simp [window, setPc]
  · simp [window, setPc, hu]

variable {s}

theorem window_of_pc (h : s'.pc = s.pc) : s'.window = s.window := by
  funext u
  rw [window, window, h]

theorem timers_schedule (s : State ω τ κ) (caller : Option κ) (q : κ) (w : ω) :
    (s.scheduleForQueueLocked caller q w .ticks).1.timers = { s.timers with
      delayed := update s.timers.delayed w true
      timeoutQ := update s.timers.timeoutQ w true } := by
  have hd := congrArg Timers.delayed (s.timers_setDelayed w true)
  exact Timers.ext hd rfl rfl

/-- A step leaves the timeouts alone and moves one caller to a place outside the window. -/
structure Leaves (s : State ω τ κ) (t : τ) (s' : State ω τ κ) : Prop where
  timers : s'.timers = s.timers
  window : s'.window = update s.window t none

theorem leaves_waitIf {r : State ω τ κ × Bool} {pc : Pc ω κ} (ret : ℤ) (hpc : pc.window = none)
    (ht : r.1.timers = s.timers) (hp : r.1.pc = s.pc) : Leaves s t (waitIf t pc ret r).1 := by
  unfold waitIf
  split
  · exact ⟨ht, by rw [window_setPc, window_of_pc hp, hpc]⟩
  · exact ⟨ht, by rw [window_setPc, window_of_pc hp]; rfl⟩

section

variable (s₀ : State ω τ κ) (ht : s₀.timers = s.timers) (hp : s₀.pc = s.pc)
include s₀ ht hp

theorem leaves_waitCancel :
    Leaves s t (waitIf t (.cancelling w) 1 (s₀.cancelSyncLocked t w)).1 := by
  apply leaves_waitIf 1 rfl
  · unfold cancelSyncLocked
    split <;> exact ht
  · unfold cancelSyncLocked
    split <;> exact hp

theorem leaves_waitFlush : Leaves s t (waitIf t .flushing 0 (s₀.workFlushLocked w t)).1 := by
  have hflusher : ∀ q, (s₀.queueFlusherLocked q w t).timers = s.timers := fun q => by
    unfold queueFlusherLocked
    dsimp only
    split <;> exact ht
  apply leaves_waitIf 0 rfl
  · unfold workFlushLocked
    dsimp only
    split
    · split
      · exact hflusher _
      · exact ht
    · exact ht
  · unfold workFlushLocked queueFlusherLocked
    dsimp only
    split
    · split
      · split <;> exact hp
      · exact hp
    · exact hp

end

def Armable (s : State ω τ κ) (w : ω) (delay : Delay) : Prop :=
  delay = .noWait ∨ delay = .ticks ∧ ∀ t, s.window t ≠ some w

/-- The caller can wait for a handler that has not had `work_lock`. -/
def CanWait (s : State ω τ κ) (here : Bool) (w : ω) : Prop :=
  here → s.inflight ≠ some (w, false)

/-- Nobody arms an item for ever, or while a caller waits for its handler, or unschedules one
from the CPU on which its handler is about to take `work_lock`. -/
def Undisturbed (s : State ω τ κ) : Action ω τ κ → Prop
  | .schedule _ _ _ w delay => s.Armable w delay
  | .reschedule _ _ here _ w delay => s.Armable w delay ∧ s.CanWait here w
  | .cancelDelayable _ here w | .cancelDelayableSync _ here w | .flushDelayable _ _ here w =>
    s.CanWait here w
  | .advance t => ∀ w caller q, s.pc t ≠ .unscheduling w caller (.reschedule q .forever)
  | _ => True

theorem timed_unscheduled (h : Timed s.timers (update s.window t none))
    (hd : s.timers.delayed w = false)
    (hrest : ∀ q d, rest = .reschedule q d → d = .noWait ∨
      d = .ticks ∧ ∀ u, update s.window t none u ≠ some w) :
    Timed (s.unscheduled t caller w ret rest).1.timers (s.unscheduled t caller w ret rest).1.window := by
  have hleaves : ∀ {s'}, Leaves s t s' → Timed s'.timers s'.window := fun hl => by
    rwa [hl.timers, hl.window]
  cases rest with
  | cancel =>
    refine hleaves ⟨s.timers_cancel w, ?_⟩
    exact (window_setPc _ _).trans (by rw [window_of_pc (s.cancel_pc w)]; rfl)
  | cancelSync =>
    exact hleaves (leaves_waitCancel _ (s.timers_cancel w) (s.cancel_pc w))
  | reschedule q d =>
    have hwin : ((s.scheduleForQueueLocked caller q w d).1.setPc t .outside).window =
        update s.window t none :=
      (window_setPc _ _).trans (by rw [window_of_pc (s.schedule_pc ..)]; rfl)
    obtain rfl | ⟨rfl, hfree⟩ := hrest q d rfl
    · refine hleaves ⟨?_, hwin⟩
      simp [unscheduled, scheduleForQueueLocked]
    · have harm := h.arm hfree hd
      rwa [← s.timers_schedule caller q w, ← hwin] at harm
  | flush =>
    cases ret with
    | false => exact hleaves (leaves_waitFlush _ rfl rfl)
    | true =>
      exact hleaves (leaves_waitFlush _ (s.timers_submit ..)
        (s.submit_pc ..))

theorem timed_unscheduleLoop {s₁ : State ω τ κ} {caller : Option κ} {rest : Rest κ}
    (h : Timed s.timers s.window) (hout : s.window t = none) (hwait : s.CanWait here w)
    (hrest : ∀ q d, rest = .reschedule q d → s.Armable w d) (hd : s.timers.delayed w)
    (ht₁ : s₁.timers = { s.timers with delayed := update s.timers.delayed w false })
    (hw₁ : s₁.window = s.window) :
    Timed (s₁.unscheduleLoop t caller here w rest).1.timers
      (s₁.unscheduleLoop t caller here w rest).1.window := by
  have hself : update s₁.window t none = s.window := by
    rw [hw₁, ← hout, update_eq_self]
  have hqueue : s₁.timeoutQ = s.timeoutQ := congrArg Timers.timeoutQ ht₁
  have hflight : s₁.inflight = s.inflight := congrArg Timers.inflight ht₁
  obtain ⟨ht, heq⟩ | ⟨ht, -, heq⟩ | ⟨ht, hin, -⟩ := s₁.unscheduleLoop_cases t caller here w rest
  · rw [heq]
    have ht₂ : State.timers { s₁ with timeoutQ := update s₁.timeoutQ w false } =
        { s.timers with
          delayed := update s.timers.delayed w false
          timeoutQ := update s.timers.timeoutQ w false } := by
      have hdelayed := congrArg Timers.delayed ht₁
      have hrest : update s₁.timeoutQ w false = update s.timeoutQ w false := by
        rw [hqueue]
      exact Timers.ext hdelayed hrest hflight
    apply timed_unscheduled
    · rw [ht₂]
      exact hself ▸ h.abort (by rwa [hqueue] at ht)
    · rw [ht₂]
      simp
    · intro q d hr
      exact hself ▸ hrest q d hr
  · rw [heq, window_setPc, hw₁, timers_setPc, ht₁]
    exact h.claim hd (by rwa [hqueue] at ht) hout
  · obtain ⟨hfly, -⟩ := h.inflight_of_delayed hd (by rwa [hqueue] at ht)
    exact absurd hfly (hwait (hin (by rw [hflight, show s.inflight = _ from hfly]; rfl)))

theorem timed_unschedule {caller : Option κ} {rest : Rest κ} (h : Timed s.timers s.window)
    (hout : s.window t = none) (hwait : s.CanWait here w)
    (hrest : ∀ q d, rest = .reschedule q d → s.Armable w d) :
    Timed (s.unscheduleLocked t caller here w rest).1.timers
      (s.unscheduleLocked t caller here w rest).1.window := by
  have hself : update s.window t none = s.window := by
    rw [← hout, update_eq_self]
  unfold unscheduleLocked
  dsimp only
  split
  · next hd =>
    exact timed_unscheduleLoop h hout hwait hrest hd (s.timers_setDelayed w false) rfl
  · next hd =>
    refine timed_unscheduled (by rwa [hself]) (by simpa [timers] using hd) fun q d hr => ?_
    rw [hself]
    exact hrest q d hr

theorem timed_advance (h : Timed s.timers s.window) (hpc : s.pc t = .unscheduling w caller rest)
    (hrest : ∀ q, rest ≠ .reschedule q .forever) :
    Timed (s.unscheduleLoop t caller false w rest).1.timers
      (s.unscheduleLoop t caller false w rest).1.window := by
  have hw : s.window t = some w := by rw [window, hpc]; rfl
  obtain ⟨ht, -⟩ | ⟨-, -, heq⟩ | ⟨ht, hin, heq⟩ := s.unscheduleLoop_cases t caller false w rest
  · simp [show s.timeoutQ w = false from h.claimed t w hw] at ht
  · rw [heq, window_setPc, show (Pc.unscheduling w caller rest).window = s.window t from hw.symm,
      update_eq_self]
    exact h
  have hgone : s.timers.inflight ≠ some (w, false) := fun hf =>
    absurd (hin (by rw [show s.inflight = _ from hf]; rfl)) nofun
  rw [heq]
  apply timed_unscheduled (h.leave hw hgone)
  · have hno := (h.delayed w).not.2
      (by simp [show s.timers.timeoutQ w = false from ht, hgone])
    simpa using hno
  intro q d hr
  cases d with
  | noWait => exact .inl rfl
  | forever => exact absurd hr (hrest q)
  | ticks =>
    refine .inr ⟨rfl, fun u hu => ?_⟩
    obtain rfl | hut := eq_or_ne u t
    · simp at hu
    · exact hut (h.alone u t w (by simpa [hut] using hu) hw)

variable (s)

theorem timers_takeWork (q : κ) : (s.takeWork q).timers = s.timers := by
  unfold takeWork
  split
  · next x l hp =>
    exact s.timers_setFlags x { s.flags x with running := true, queued := false } rfl
  · split <;> rfl

theorem window_takeWork (q : κ) : (s.takeWork q).window = s.window := by
  unfold takeWork
  split
  · rfl
  split
  · funext t
    by_cases ht : s.pc t = .draining q
    · simp [window, ht, Pc.window]
    · simp [window, ht]
  · rfl

theorem frame_finishWork (q : κ) (x : Item ω τ) :
    (s.finishWork q x).timers = s.timers ∧ (s.finishWork q x).pc = s.pc := by
  have h₁ := s.timers_setFlags x { s.flags x with running := false } rfl
  have hp₁ : (s.setFlags x { s.flags x with running := false }).pc = s.pc := rfl
  unfold finishWork
  dsimp only
  generalize s.setFlags x { s.flags x with running := false } = s₁ at h₁ hp₁ ⊢
  have h₂ : (if (s₁.flags x).flushing then s₁.finalizeFlushLocked x else s₁).timers = s.timers ∧
      (if (s₁.flags x).flushing then s₁.finalizeFlushLocked x else s₁).pc = s.pc := by
    split
    · cases x <;> exact ⟨(s₁.timers_setFlags _ { s₁.flags _ with flushing := false } rfl).trans h₁, hp₁⟩
    · exact ⟨h₁, hp₁⟩
  generalize (if (s₁.flags x).flushing then s₁.finalizeFlushLocked x else s₁) = s₂ at h₂ ⊢
  split
  · have hc := s₂.timers_setFlags x { s₂.flags x with canceling := false } rfl
    unfold finalizeCancelLocked
    dsimp only
    split <;> exact ⟨hc.trans h₂.1, h₂.2⟩
  · exact h₂

theorem timers_workTimeout (w : ω) :
    (s.workTimeout w).timers = { s.timers with
      delayed := update s.timers.delayed w false
      inflight := some (w, true) } := by
  unfold workTimeout
  dsimp only
  split
  · have ht : ((s.setFlags (.work w) { s.flags (.work w) with delayed := false }).submitToQueueLocked
        none w (s.delayQueue w)).1.timers =
        { s.timers with delayed := update s.timers.delayed w false } :=
      (timers_submit ..).trans (s.timers_setDelayed w false)
    have hd := congrArg Timers.delayed ht
    have hq := congrArg Timers.timeoutQ ht
    exact Timers.ext hd hq rfl
  · next hd =>
    have hself : update s.timers.delayed w false = s.timers.delayed := by
      rw [← show s.timers.delayed w = false by simpa [timers] using hd, update_eq_self]
    rw [hself]
    rfl

theorem workTimeout_pc (w : ω) : (s.workTimeout w).pc = s.pc := by
  unfold workTimeout
  dsimp only
  split
  · exact submit_pc ..
  · rfl

variable {s}

theorem timed_step (h : Timed s.timers s.window) (hok : s.Undisturbed a)
    (hs : s.step delayable a = some (s', es)) : Timed s'.timers s'.window := by
  have hkeep : ∀ {u : State ω τ κ}, u.timers = s.timers → u.pc = s.pc → Timed u.timers u.window :=
    fun ht hp => by rwa [ht, window_of_pc hp]
  have hout : ∀ {t : τ}, s.pc t = .outside → s.window t = none := fun hpc => by
    rw [window, hpc]; rfl
  have hgo : ∀ {t : τ} {u : State ω τ κ}, s.window t = none → u.timers = s.timers →
      u.pc = update s.pc t .outside → Timed u.timers u.window := fun {t} u hw ht hp => by
    rw [ht, show u.window = (s.setPc t .outside).window from window_of_pc hp, window_setPc,
      show (.outside : Pc ω κ).window = s.window t from hw.symm, update_eq_self]
    exact h
  have hleaves : ∀ {t : τ} {u : State ω τ κ}, s.pc t = .outside → Leaves s t u →
      Timed u.timers u.window := fun {t} _ hpc hl => by
    rwa [hl.timers, hl.window, ← hout hpc, update_eq_self]
  cases a with
  | start q =>
    obtain ⟨-, hs⟩ := Option.ite_none_right_eq_some.1 hs
    cases hs
    exact hkeep rfl rfl
  | drain t q plug =>
    obtain ⟨hpc, rfl⟩ := calls_eq_some hs
    unfold workQueueDrain
    dsimp only
    split
    · exact hleaves hpc ⟨rfl, window_setPc s (.draining q)⟩
    · exact h
  | unplug t q =>
    obtain ⟨-, rfl⟩ := calls_eq_some hs
    exact hkeep rfl rfl
  | submit t caller queue w =>
    obtain ⟨-, rfl⟩ := calls_eq_some hs
    exact hkeep (s.timers_submit ..) (s.submit_pc ..)
  | cancel t w =>
    obtain ⟨-, hs⟩ := Option.ite_none_left_eq_some.1 hs
    obtain ⟨-, rfl⟩ := calls_eq_some hs
    exact hkeep (s.timers_cancel w) (s.cancel_pc w)
  | cancelSync t w =>
    obtain ⟨-, hs⟩ := Option.ite_none_left_eq_some.1 hs
    obtain ⟨hpc, rfl⟩ := calls_eq_some hs
    unfold workCancelSync
    split
    · exact hleaves hpc
        (leaves_waitCancel _ (s.timers_cancel w) (s.cancel_pc w))
    · exact h
  | flush t w =>
    obtain ⟨-, hs⟩ := Option.ite_none_left_eq_some.1 hs
    obtain ⟨hpc, rfl⟩ := calls_eq_some hs
    exact hleaves hpc (leaves_waitFlush s rfl rfl)
  | schedule t caller q w delay =>
    obtain ⟨-, hs⟩ := Option.ite_none_right_eq_some.1 hs
    obtain ⟨-, rfl⟩ := calls_eq_some hs
    unfold workScheduleForQueue
    split
    · next hidle =>
      obtain rfl | ⟨rfl, hfree⟩ := hok
      · exact hkeep (s.timers_submit ..) (s.submit_pc ..)
      have hd : s.timers.delayed w = false := by
        cases hd : (s.flags (.work w)).delayed with
        | false => exact hd
        | true => simp [WorkFlags.bits, hd] at hidle
      have harm := h.arm hfree hd
      rwa [← s.timers_schedule caller q w] at harm
    · exact h
  | reschedule t caller here q w delay =>
    obtain ⟨-, hs⟩ := Option.ite_none_right_eq_some.1 hs
    obtain ⟨hpc, rfl⟩ := calls_eq_some hs
    refine timed_unschedule h (hout hpc) hok.2 fun p d hr => ?_
    cases hr
    exact hok.1
  | cancelDelayable t here w =>
    obtain ⟨-, hs⟩ := Option.ite_none_right_eq_some.1 hs
    obtain ⟨hpc, rfl⟩ := calls_eq_some hs
    exact timed_unschedule h (hout hpc) hok nofun
  | cancelDelayableSync t here w =>
    obtain ⟨-, hs⟩ := Option.ite_none_right_eq_some.1 hs
    obtain ⟨hpc, rfl⟩ := calls_eq_some hs
    unfold unlessIdle
    split
    · exact timed_unschedule h (hout hpc) hok nofun
    · exact h
  | flushDelayable t caller here w =>
    obtain ⟨-, hs⟩ := Option.ite_none_right_eq_some.1 hs
    obtain ⟨hpc, rfl⟩ := calls_eq_some hs
    unfold unlessIdle
    split
    · exact timed_unschedule h (hout hpc) hok nofun
    · exact h
  | queueThread q =>
    obtain ⟨-, hs⟩ := Option.ite_none_right_eq_some.1 hs
    cases hs
    unfold workQueueMain
    split
    · rwa [timers_takeWork, window_takeWork]
    · exact hkeep (s.frame_finishWork ..).1 (s.frame_finishWork ..).2
  | expire w =>
    obtain ⟨hw, hs⟩ := Option.ite_none_right_eq_some.1 hs
    cases hs
    exact h.expire hw.1 hw.2
  | workTimeout =>
    simp only [step] at hs
    split at hs
    · next w hin =>
      cases hs
      rw [timers_workTimeout, window_of_pc (s.workTimeout_pc w)]
      exact h.handle hin
    · contradiction
  | handlerReturn =>
    simp only [step] at hs
    split at hs
    · next w hin =>
      cases hs
      exact h.handlerReturn hin
    · contradiction
  | advance t =>
    simp only [step, advance] at hs
    split at hs
    · contradiction
    · contradiction
    · next hpc =>
      cases hs
      exact hgo (by rw [window, hpc]; rfl) rfl rfl
    · next hpc =>
      obtain ⟨-, hs⟩ := Option.ite_none_right_eq_some.1 hs
      cases hs
      exact hgo (by rw [window, hpc]; rfl) rfl rfl
    · next hpc =>
      obtain ⟨-, hs⟩ := Option.ite_none_right_eq_some.1 hs
      cases hs
      exact hgo (by rw [window, hpc]; rfl) rfl rfl
    · next w caller rest hpc =>
      have ht := timed_advance h hpc fun q hr => hok w caller q (by rw [hpc, hr])
      rwa [Option.some.inj hs] at ht

end State

variable [DecidableEq ω] [DecidableEq τ] [DecidableEq κ] {delayable : ω → Bool}

section Decidable

variable [Fintype ω] [Fintype τ] [Fintype κ]

instance (s : State ω τ κ) (w : ω) (delay : Delay) : Decidable (s.Armable w delay) :=
  inferInstanceAs (Decidable (delay = .noWait ∨ delay = .ticks ∧ ∀ t, s.window t ≠ some w))

instance (s : State ω τ κ) (here : Bool) (w : ω) : Decidable (s.CanWait here w) :=
  inferInstanceAs (Decidable (here → s.inflight ≠ some (w, false)))

instance (s : State ω τ κ) : ∀ a, Decidable (s.Undisturbed a)
  | .schedule _ _ _ w delay => inferInstanceAs (Decidable (s.Armable w delay))
  | .reschedule _ _ here _ w delay =>
    inferInstanceAs (Decidable (s.Armable w delay ∧ s.CanWait here w))
  | .cancelDelayable _ here w | .cancelDelayableSync _ here w | .flushDelayable _ _ here w =>
    inferInstanceAs (Decidable (s.CanWait here w))
  | .advance t => inferInstanceAs (Decidable
      (∀ w caller q, s.pc t ≠ .unscheduling w caller (.reschedule q .forever)))
  | .start _ | .drain .. | .unplug .. | .submit .. | .cancel .. | .cancelSync .. | .flush .. |
    .queueThread _ | .expire _ | .workTimeout | .handlerReturn => inferInstanceAs (Decidable True)

end Decidable

end ZephyrRtos.Work
