import ZephyrRtos.Work.Model

namespace ZephyrRtos.Work

open Function Lib Sched

def Pc.waits {ω κ : Type} : Pc ω κ → Bool
  | .flushing | .cancelling _ => true
  | .outside | .draining _ | .drained | .unscheduling .. => false

variable {ω τ κ : Type} [DecidableEq ω] [DecidableEq τ] [DecidableEq κ]

def State.enqueue (s : State ω τ κ) (w : ω) (q : κ) : State ω τ κ :=
  { (s.setPending q (s.pending q ++ [.work w])).setFlags (.work w)
      { s.flags (.work w) with queued := true } with
    queue := update s.queue w (some q) }

inductive Change (s : State ω τ κ) : State ω τ κ → Prop
  | enqueue {w q} (hstart : (s.queueFlags q).started) (hc : (s.flags (.work w)).canceling = false)
      (hq : (s.flags (.work w)).queued = false)
      (hrun : (s.flags (.work w)).running → s.queue w = some q) :
      Change s (s.enqueue w q)
  | dequeue {w q} (hq : (s.flags (.work w)).queued) (hw : s.queue w = some q) :
      Change s ((s.setFlags (.work w) { s.flags (.work w) with queued := false }).setPending q
        ((s.pending q).erase (.work w)))
  | dequeueLost {w} (hq : (s.flags (.work w)).queued) (hw : s.queue w = none) :
      Change s (s.setFlags (.work w) { s.flags (.work w) with queued := false })
  | cancel {w} : Change s (s.setFlags (.work w) { s.flags (.work w) with canceling := true })
  | waitCancel {w t} (hpc : (s.pc t).waits = false) (hc : (s.flags (.work w)).canceling) :
      Change s ({ s with
        sem := update s.sem t false
        pendingCancels := s.pendingCancels ++ [(t, w)] }.setPc t (.cancelling w))
  | waitFlush {w t q} (hpc : (s.pc t).waits = false)
      (hw : (s.flags (.work w)).queued ∨ (s.flags (.work w)).running) (hq : s.queue w = some q) :
      Change s ((s.queueFlusherLocked q w t).setPc t .flushing)
  | waitFlushLost {w t} (hpc : (s.pc t).waits = false)
      (hw : (s.flags (.work w)).queued ∨ (s.flags (.work w)).running) (hq : s.queue w = none) :
      Change s (s.setPc t .flushing)
  | goOn {t pc} (hpc : (s.pc t).waits = false) (hpc' : pc.waits = false) : Change s (s.setPc t pc)
  | woken {t} (hpc : (s.pc t).waits) (hsem : s.sem t) :
      Change s { s.setPc t .outside with sem := update s.sem t false }
  | drained {q f} (hf : f.started = (s.queueFlags q).started) :
      Change s { s with
        queueFlags := update s.queueFlags q f
        pc t := if s.pc t = .draining q then .drained else s.pc t }
  | queueFlags {q f} (hf : f.started = (s.queueFlags q).started) :
      Change s { s with queueFlags := update s.queueFlags q f }
  | start {q f} (hf : f.started) (hq : (s.queueFlags q).started = false) :
      Change s { s.setPending q [] with queueFlags := update s.queueFlags q f }
  | take {q x l f} (hstart : (s.queueFlags q).started) (hf : f.started) (hidle : s.current q = none)
      (hp : s.pending q = x :: l) :
      Change s { (s.setFlags x { s.flags x with running := true, queued := false }).setPending q l with
        current := update s.current q (some x)
        queueFlags := update s.queueFlags q f }
  | delayed {w} (b : Bool) (delayQueue timeoutQ inflight) :
      Change s { s.setFlags (.work w) { s.flags (.work w) with delayed := b } with
        delayQueue, timeoutQ, inflight }
  | timeout (timeoutQ inflight) : Change s { s with timeoutQ, inflight }

abbrev Changes : State ω τ κ → State ω τ κ → Prop := Relation.ReflTransGen Change

variable {s s' : State ω τ κ} {a : Action ω τ κ} {es : List (Event τ)} {t : τ} {w : ω} {q : κ}
  {caller queue : Option κ} {here : Bool}

namespace State

variable (s)

theorem queueSubmit_cases (caller queue : Option κ) (x : Item ω τ) :
    (s.queueSubmitLocked caller x queue).1 = s ∧ (s.queueSubmitLocked caller x queue).2 < 0 ∨
    ∃ q, queue = some q ∧ (s.queueFlags q).started ∧
      s.queueSubmitLocked caller x queue = (s.setPending q (s.pending q ++ [x]), 1) := by
  cases queue with
  | none => exact .inl ⟨rfl, by simp [queueSubmitLocked, einval]⟩
  | some q =>
    unfold queueSubmitLocked
    dsimp only
    split_ifs with hs
    · exact .inl ⟨rfl, by simp [enodev]⟩
    · exact .inl ⟨rfl, by simp [ebusy]⟩
    · exact .inl ⟨rfl, by simp [ebusy]⟩
    · exact .inr ⟨q, rfl, by simpa using hs, rfl⟩

theorem submit_cases (caller queue : Option κ) (w : ω) :
    (s.submitToQueueLocked caller w queue).1 = s ∨
    ∃ q, (s.queueFlags q).started ∧ (s.flags (.work w)).canceling = false ∧
      (s.flags (.work w)).queued = false ∧ ((s.flags (.work w)).running → s.queue w = some q) ∧
      (s.submitToQueueLocked caller w queue).1 = s.enqueue w q := by
  unfold submitToQueueLocked
  dsimp only
  split
  · exact .inl rfl
  next hc =>
  split
  · next hq =>
    obtain ⟨hs, hneg⟩ | ⟨q, hsome, hstart, hr⟩ := s.queueSubmit_cases caller
      (if (s.flags (.work w)).running then s.queue w else queue.or (s.queue w)) (.work w)
    · rw [if_pos hneg]
      exact .inl hs
    · rw [hr, hsome]
      refine .inr ⟨q, hstart, by simpa using hc, by simpa using hq, fun hrun => ?_, rfl⟩
      rwa [if_pos hrun] at hsome
  · exact .inl rfl

theorem changes_submit (caller queue : Option κ) (w : ω) :
    Changes s (s.submitToQueueLocked caller w queue).1 := by
  obtain h | ⟨q, hstart, hc, hq, hrun, h⟩ := s.submit_cases caller queue w
  · rw [h]
  · rw [h]
    exact .single (.enqueue hstart hc hq hrun)

@[simp]
theorem submit_pc (caller queue : Option κ) (w : ω) :
    (s.submitToQueueLocked caller w queue).1.pc = s.pc := by
  obtain h | ⟨q, -, -, -, -, h⟩ := s.submit_cases caller queue w
  · rw [h]
  · rw [h]; rfl

theorem changes_queueRemove (w : ω) : Changes s (s.queueRemoveLocked w) := by
  unfold queueRemoveLocked
  dsimp only
  split
  · next hq =>
    cases hw : (s.setFlags (.work w) { s.flags (.work w) with queued := false }).queue w with
    | none => exact .single (.dequeueLost hq hw)
    | some q => exact .single (.dequeue hq hw)
  · exact .refl

theorem cancel_cases (w : ω) :
    ∃ s₁, (s₁ = s ∨ s₁ = s.queueRemoveLocked w) ∧
      ((s.cancelAsyncLocked w).1 = s₁ ∨
        (s.cancelAsyncLocked w).1 =
          s₁.setFlags (.work w) { s₁.flags (.work w) with canceling := true }) := by
  refine ⟨if (s.flags (.work w)).canceling then s else s.queueRemoveLocked w, ?_, ?_⟩
  · split
    · exact .inl rfl
    · exact .inr rfl
  rw [cancelAsyncLocked]
  generalize (if (s.flags (.work w)).canceling then s else s.queueRemoveLocked w) = s₁
  split
  · exact .inr rfl
  · exact .inl rfl

theorem changes_cancel (w : ω) : Changes s (s.cancelAsyncLocked w).1 := by
  obtain ⟨s₁, hs₁, h⟩ := s.cancel_cases w
  have hremove : Changes s s₁ := by
    obtain rfl | rfl := hs₁
    · exact .refl
    · exact s.changes_queueRemove w
  obtain h | h := h
  · rwa [h]
  · rw [h]
    exact hremove.tail .cancel

theorem changes_waitCancel (hpc : (s.pc t).waits = false) (ret : ℤ) (w : ω) :
    Changes s (waitIf t (.cancelling w) ret (s.cancelSyncLocked t w)).1 := by
  unfold waitIf cancelSyncLocked
  split
  · next hc => exact .single (.waitCancel hpc hc)
  · exact .single (.goOn hpc rfl)

theorem changes_waitFlush (hpc : (s.pc t).waits = false) (ret : ℤ) (w : ω) :
    Changes s (waitIf t .flushing ret (s.workFlushLocked w t)).1 := by
  unfold waitIf workFlushLocked
  dsimp only
  split
  · next hw =>
    cases hq : s.queue w with
    | none => exact .single (.waitFlushLost hpc (by simpa using hw) hq)
    | some q => exact .single (.waitFlush hpc (by simpa using hw) hq)
  · exact .single (.goOn hpc rfl)

theorem changes_schedule (caller : Option κ) (q : κ) (w : ω)
    (delay : Delay) : Changes s (s.scheduleForQueueLocked caller q w delay).1 := by
  unfold scheduleForQueueLocked
  split
  · exact s.changes_submit caller (some q) w
  · exact .single (.delayed true _ _ _)

@[simp]
theorem queueRemove_pc (w : ω) : (s.queueRemoveLocked w).pc = s.pc := by
  unfold queueRemoveLocked
  dsimp only
  split
  · split <;> rfl
  · rfl

@[simp]
theorem cancel_pc (w : ω) : (s.cancelAsyncLocked w).1.pc = s.pc := by
  obtain ⟨s₁, rfl | rfl, h | h⟩ := s.cancel_cases w <;> simp [h, setFlags]

@[simp]
theorem schedule_pc (caller : Option κ) (q : κ) (w : ω)
    (delay : Delay) : (s.scheduleForQueueLocked caller q w delay).1.pc = s.pc := by
  unfold scheduleForQueueLocked
  split
  · simp
  · rfl

theorem changes_unscheduled (hpc : (s.pc t).waits = false) (caller : Option κ)
    (w : ω) (ret : Bool) (rest : Rest κ) : Changes s (s.unscheduled t caller w ret rest).1 := by
  cases rest with
  | cancel => exact (s.changes_cancel w).tail (.goOn (by simpa) rfl)
  | cancelSync => exact (s.changes_cancel w).trans (changes_waitCancel _ (by simpa) 1 w)
  | reschedule q delay =>
    exact (s.changes_schedule caller q w delay).tail (.goOn (by simpa) rfl)
  | flush =>
    cases ret with
    | false => exact changes_waitFlush _ hpc 0 w
    | true =>
      exact (s.changes_submit caller (s.delayQueue w) w).trans
        (changes_waitFlush _ (by simpa) 0 w)

theorem unscheduleLoop_cases (t : τ) (caller : Option κ) (here : Bool) (w : ω)
    (rest : Rest κ) :
    (s.timeoutQ w ∧ s.unscheduleLoop t caller here w rest =
      { s with timeoutQ := update s.timeoutQ w false }.unscheduled t caller w true rest) ∨
    (s.timeoutQ w = false ∧ s.inflight.map Prod.fst = some w ∧
      s.unscheduleLoop t caller here w rest = (s.setPc t (.unscheduling w caller rest), [])) ∨
    (s.timeoutQ w = false ∧ (s.inflight.map Prod.fst = some w → here) ∧
      s.unscheduleLoop t caller here w rest = s.unscheduled t caller w true rest) := by
  rw [unscheduleLoop, zTryAbortTimeout]
  by_cases ht : s.timeoutQ w
  · rw [if_pos ht]
    exact .inl ⟨ht, if_neg (by simp [eagain])⟩
  rw [if_neg ht]
  rw [Bool.not_eq_true] at ht
  split
  · next hin => exact .inr (.inl ⟨ht, hin.1, if_pos rfl⟩)
  · next hin =>
    refine .inr (.inr ⟨ht, fun hf => ?_, if_neg (by simp [einval, eagain])⟩)
    simpa [hf] using hin

theorem changes_unscheduleLoop (hpc : (s.pc t).waits = false)
    (caller : Option κ) (here : Bool) (w : ω) (rest : Rest κ) :
    Changes s (s.unscheduleLoop t caller here w rest).1 := by
  obtain ⟨-, h⟩ | ⟨-, -, h⟩ | ⟨-, -, h⟩ := s.unscheduleLoop_cases t caller here w rest
  · rw [h]
    refine .head (.timeout (update s.timeoutQ w false) s.inflight) ?_
    exact changes_unscheduled { s with timeoutQ := update s.timeoutQ w false } hpc ..
  · rw [h]
    exact .single (.goOn hpc rfl)
  · rw [h]
    exact changes_unscheduled _ hpc ..

theorem changes_unschedule (hpc : (s.pc t).waits = false)
    (caller : Option κ) (here : Bool) (w : ω) (rest : Rest κ) :
    Changes s (s.unscheduleLocked t caller here w rest).1 := by
  unfold unscheduleLocked
  dsimp only
  split
  · refine .head (.delayed (w := w) false s.delayQueue s.timeoutQ s.inflight) ?_
    exact changes_unscheduleLoop (s.setFlags _ _) hpc ..
  · exact changes_unscheduled _ hpc ..

theorem changes_unlessIdle (hpc : (s.pc t).waits = false)
    (caller : Option κ) (here : Bool) (w : ω) (rest : Rest κ) :
    Changes s (s.unlessIdle t caller here w rest).1 := by
  unfold unlessIdle
  split
  · exact s.changes_unschedule hpc ..
  · exact .refl

theorem changes_takeWork (hstart : (s.queueFlags q).started)
    (hidle : s.current q = none) : Changes s (s.takeWork q) := by
  unfold takeWork
  split
  · next x l hp => exact .single (.take hstart hstart hidle hp)
  · split
    · exact .single (.drained rfl)
    · exact .refl

theorem changes_workTimeout (w : ω) : Changes s (s.workTimeout w) := by
  unfold workTimeout
  dsimp only
  split
  · exact .head (.delayed false s.delayQueue s.timeoutQ s.inflight)
      ((changes_submit _ none _ w).tail (.timeout _ _))
  · exact .single (.timeout _ _)

variable {s}

theorem changes_advance (h : s.advance t = some (s', es)) : Changes s s' := by
  unfold advance at h
  split at h
  · contradiction
  · contradiction
  · next hpc =>
    cases h
    exact .single (.goOn (by rw [hpc]; rfl) rfl)
  · next hpc =>
    split at h
    · next hsem =>
      cases h
      exact .single (.woken (by rw [hpc]; rfl) hsem)
    · contradiction
  · next hpc =>
    split at h
    · next hsem =>
      cases h
      exact .single (.woken (by rw [hpc]; rfl) hsem)
    · contradiction
  · next w caller rest hpc =>
    have hc := s.changes_unscheduleLoop (by rw [hpc]; rfl) caller false w rest
    rwa [Option.some.inj h] at hc

end State

theorem calls_eq_some (h : s.calls t r = some (s', es)) : s.pc t = .outside ∧ s' = r.1 := by
  unfold State.calls at h
  split at h
  · next hpc => exact ⟨hpc, (congrArg Prod.fst (Option.some.inj h)).symm⟩
  · contradiction

theorem changes_of_step (h : s.step delayable a = some (s', es)) :
    (∃ q x, a = .queueThread q ∧ s.current q = some x ∧ s' = s.finishWork q x) ∨ Changes s s' := by
  have hout : ∀ {t : τ}, s.pc t = .outside → (s.pc t).waits = false := fun hpc => by rw [hpc]; rfl
  cases a with
  | queueThread q =>
    simp only [State.step, Option.ite_none_right_eq_some] at h
    obtain ⟨hstart, rfl, -⟩ := h
    unfold State.workQueueMain
    split
    · next hidle => exact .inr (s.changes_takeWork hstart hidle)
    · next x hx => exact .inl ⟨q, x, rfl, hx, rfl⟩
  | start q =>
    simp only [State.step, Option.ite_none_right_eq_some] at h
    obtain ⟨hstart, rfl, -⟩ := h
    exact .inr (.single (.start rfl (by simpa using hstart)))
  | drain t q plug =>
    obtain ⟨hpc, rfl⟩ := calls_eq_some h
    unfold State.workQueueDrain
    dsimp only
    split
    · have hwait : Change s (s.setPc t (.draining q)) := .goOn (hout hpc) rfl
      exact .inr (.tail (.single hwait) (.queueFlags rfl))
    · exact .inr .refl
  | unplug t q =>
    obtain ⟨-, rfl⟩ := calls_eq_some h
    exact .inr (.single (.queueFlags rfl))
  | submit t caller queue w =>
    obtain ⟨-, rfl⟩ := calls_eq_some h
    exact .inr (s.changes_submit caller queue w)
  | cancel t w =>
    obtain ⟨-, h⟩ := Option.ite_none_left_eq_some.1 h
    obtain ⟨-, rfl⟩ := calls_eq_some h
    exact .inr (s.changes_cancel w)
  | cancelSync t w =>
    obtain ⟨-, h⟩ := Option.ite_none_left_eq_some.1 h
    obtain ⟨hpc, rfl⟩ := calls_eq_some h
    unfold State.workCancelSync
    split
    · exact .inr ((s.changes_cancel w).trans
        (State.changes_waitCancel _ (by simpa using hout hpc) 1 w))
    · exact .inr .refl
  | flush t w =>
    obtain ⟨-, h⟩ := Option.ite_none_left_eq_some.1 h
    obtain ⟨hpc, rfl⟩ := calls_eq_some h
    exact .inr (s.changes_waitFlush (hout hpc) 0 w)
  | schedule t caller q w delay =>
    obtain ⟨-, h⟩ := Option.ite_none_right_eq_some.1 h
    obtain ⟨-, rfl⟩ := calls_eq_some h
    unfold State.workScheduleForQueue
    split
    · exact .inr (s.changes_schedule caller q w delay)
    · exact .inr .refl
  | reschedule t caller here q w delay =>
    obtain ⟨-, h⟩ := Option.ite_none_right_eq_some.1 h
    obtain ⟨hpc, rfl⟩ := calls_eq_some h
    exact .inr (s.changes_unschedule (hout hpc) ..)
  | cancelDelayable t here w =>
    obtain ⟨-, h⟩ := Option.ite_none_right_eq_some.1 h
    obtain ⟨hpc, rfl⟩ := calls_eq_some h
    exact .inr (s.changes_unschedule (hout hpc) ..)
  | cancelDelayableSync t here w =>
    obtain ⟨-, h⟩ := Option.ite_none_right_eq_some.1 h
    obtain ⟨hpc, rfl⟩ := calls_eq_some h
    exact .inr (s.changes_unlessIdle (hout hpc) ..)
  | flushDelayable t caller here w =>
    obtain ⟨-, h⟩ := Option.ite_none_right_eq_some.1 h
    obtain ⟨hpc, rfl⟩ := calls_eq_some h
    exact .inr (s.changes_unlessIdle (hout hpc) ..)
  | expire w =>
    simp only [State.step, Option.ite_none_right_eq_some] at h
    obtain ⟨-, rfl, -⟩ := h
    exact .inr (.single (.timeout ..))
  | workTimeout =>
    simp only [State.step] at h
    split at h
    · cases h
      exact .inr (s.changes_workTimeout _)
    · contradiction
  | handlerReturn =>
    simp only [State.step] at h
    split at h
    · cases h
      exact .inr (.single (.timeout s.timeoutQ none))
    · contradiction
  | advance t => exact .inr (State.changes_advance h)

end ZephyrRtos.Work
