import ZephyrRtos.Work.Queues

namespace ZephyrRtos.Work

open List Lib Sched

variable {ω τ κ : Type} [DecidableEq ω] [DecidableEq τ] [DecidableEq κ] {delayable : ω → Bool}
  {s s' : State ω τ κ} {a : Action ω τ κ} {es : List (Event τ)} {t : τ} {w : ω} {q : κ}

def State.CancelsGoOn (s : State ω τ κ) : Prop :=
  ∀ t w, (t, w) ∈ s.pendingCancels → (s.flags (.work w)).canceling

/-- After the step, no two threads wait for the cancellation of one item. -/
def State.OneCanceller (delayable : ω → Bool) (s : State ω τ κ) (a : Action ω τ κ) : Prop :=
  ∀ r ∈ s.step delayable a, (r.1.pendingCancels.map Prod.snd).Nodup

namespace State.CancelsGoOn

section

variable (h : s.CancelsGoOn) (hrec : s'.pendingCancels = s.pendingCancels)
include h hrec

theorem mono (hflags : ∀ w, (s.flags (.work w)).canceling → (s'.flags (.work w)).canceling) :
    s'.CancelsGoOn := fun t w hw => hflags w (h t w (hrec ▸ hw))

theorem update (hflags : s'.flags = Function.update s.flags x f)
    (hf : (s.flags x).canceling → f.canceling) : s'.CancelsGoOn := by
  refine h.mono hrec fun w hw => ?_
  obtain rfl | hx := eq_or_ne (.work w) x
  · simpa [hflags] using hf hw
  · simpa [hflags, hx] using hw

end

theorem change (h : s.CancelsGoOn) (hc : Change s s') : s'.CancelsGoOn := by
  cases hc with
  | enqueue | dequeue | dequeueLost | take | delayed => exact h.update rfl rfl id
  | cancel => exact h.update rfl rfl fun _ => rfl
  | @waitCancel w t hpc hc =>
    intro u v hv
    obtain hv | hv := mem_append.1 hv
    · exact h u v hv
    · cases mem_singleton.1 hv
      exact hc
  | @waitFlush w t q =>
    unfold queueFlusherLocked
    dsimp only
    split <;> exact h.mono rfl fun v hv => by simpa [setPc] using hv
  | waitFlushLost | goOn | woken | drained | queueFlags | start | timeout =>
    exact h.mono rfl fun _ => id

theorem changes (h : s.CancelsGoOn) (hc : Changes s s') : s'.CancelsGoOn := by
  induction hc with
  | refl => exact h
  | tail _ hc ih => exact ih.change hc

section

variable (h : s.CancelsGoOn) (hone : (s.pendingCancels.map Prod.snd).Nodup)
include h hone

theorem finalizeCancelLocked (x : Item ω τ) : (s.finalizeCancelLocked x).CancelsGoOn := by
  have hflags : ∀ v, .work v ≠ x → (s.flags (.work v)).canceling →
      ((s.setFlags x { s.flags x with canceling := false }).flags (.work v)).canceling := by
    intro v hv hc
    simpa [hv] using hc
  unfold State.finalizeCancelLocked
  dsimp only
  split
  · next t w hfind =>
    obtain rfl : .work w = x := by simpa using find?_some hfind
    intro u v hv
    have hmem := mem_of_mem_erase hv
    refine hflags v (fun hvw => ?_) (h u v hmem)
    cases hvw
    have hu : (u, w) = (t, w) := inj_on_of_nodup_map hone hmem (mem_of_find?_eq_some hfind) rfl
    rw [hu] at hv
    exact hone.of_map.not_mem_erase hv
  · next hfind =>
    intro u v hv
    refine hflags v (fun hvx => ?_) (h u v hv)
    simpa [hvx] using find?_eq_none.1 hfind _ hv

theorem finishWork (q : κ) (x : Item ω τ) : (s.finishWork q x).CancelsGoOn := by
  rw [finishWork_eq]
  have h₁ : ((s.setFlags x { s.flags x with running := false }).idle q).CancelsGoOn :=
    h.update rfl rfl id
  generalize hs₂ : (if (s.flags x).flushing then
      ((s.setFlags x { s.flags x with running := false }).idle q).finalizeFlushLocked x
      else (s.setFlags x { s.flags x with running := false }).idle q) = s₂
  have h₂ : s₂.CancelsGoOn ∧ s₂.pendingCancels = s.pendingCancels := by
    rw [← hs₂]
    split
    · cases x with
      | work w => exact ⟨h₁.update rfl rfl id, rfl⟩
      | flusher t => exact ⟨h₁.update rfl rfl id, rfl⟩
    · exact ⟨h₁, rfl⟩
  dsimp only
  rw [hs₂]
  split
  · exact h₂.1.finalizeCancelLocked (h₂.2 ▸ hone) x
  · exact h₂.1

theorem step (hs : s.step delayable a = some (s', es)) : s'.CancelsGoOn := by
  obtain ⟨q, x, -, -, rfl⟩ | hc := changes_of_step hs
  · exact h.finishWork hone q x
  · exact h.changes hc

end

end State.CancelsGoOn

/-- If no two threads wait for one item, each record is that of a cancellation that goes on, and
each thread that waits has its record. -/
theorem cancel_sync_released
    (h : Reaches (workQueues delayable) (State.OneCanceller delayable) es s) :
    (∀ t w, (t, w) ∈ s.pendingCancels → (s.flags (.work w)).canceling) ∧
    ∀ t w, s.pc t = .cancelling w → s.sem t = false → (s.flags (.work w)).canceling := by
  have hgo : s.CancelsGoOn ∧ (s.pendingCancels.map Prod.snd).Nodup := by
    refine h.invariant (I := fun _ s => s.CancelsGoOn ∧ (s.pendingCancels.map Prod.snd).Nodup)
      ⟨fun t w hw => by simp [workQueues, State.init] at hw, by simp [workQueues, State.init]⟩ ?_
    intro es s a s' es' hi hok hs
    exact ⟨hi.1.step hi.2 hs, hok _ hs⟩
  refine ⟨hgo.1, fun t w hpc hsem => hgo.1 t w (((reaches_wf h).records t w).2 ?_)⟩
  simp [State.waiting, hpc, hsem, Pc.waits]

instance (s : State ω τ κ) (a : Action ω τ κ) : Decidable (s.OneCanceller delayable a) :=
  inferInstanceAs (Decidable (∀ r ∈ s.step delayable a, (r.1.pendingCancels.map Prod.snd).Nodup))

theorem cancel_sync_released_two : ∃ es s,
    Reaches (workQueues fun _ : Fin 2 => false) (State.OneCanceller fun _ => false) es s ∧
    s.pendingCancels = [((1 : Fin 3), 1)] ∧ s.current (0 : Fin 2) = none ∧
    (s.flags (.work 1)).canceling := by
  obtain ⟨es, s, hrun, hp, hc⟩ := Reaches.of_exec
    (workQueues (τ := Fin 3) (κ := Fin 2) fun _ : Fin 2 => false)
    (State.OneCanceller fun _ => false)
    [.start 0, .start 1, .submit 0 none (some 0) 0, .submit 0 none (some 1) 1, .queueThread 0,
      .queueThread 1, .cancelSync 0 0, .cancelSync 1 1, .queueThread 0]
    (fun _ s => s.pendingCancels = [(1, 1)] ∧ s.current 0 = none) (by decide +kernel)
  exact ⟨es, s, hrun, hp, hc, (cancel_sync_released hrun).1 1 1 (by simp [hp])⟩

/-- Two threads cancel one item while it runs: its end releases the first of them only. -/
theorem cancel_sync_forgotten : ∃ es s,
    Reaches (workQueues fun _ : Fin 1 => false) (fun _ _ => True) es s ∧
    s.pendingCancels = [((2 : Fin 3), 0)] ∧ s.flags (.work 0) = .zero ∧
    s.current (0 : Fin 1) = none ∧ s.sem 1 ∧ s.pc 2 = .cancelling 0 ∧ s.sem 2 = false := by
  exact Reaches.of_exec _ _
    [.start 0, .submit 0 none (some 0) 0, .queueThread 0, .cancelSync 1 0, .cancelSync 2 0,
      .queueThread 0] _ (by decide +kernel)

end ZephyrRtos.Work
