import ZephyrRtos.Mutex.Ownership

namespace ZephyrRtos.Mutex

open Function Lib Sched

variable {μ τ : Type} [DecidableEq μ] [DecidableEq τ] {cfg : Config} {s s' : State μ τ}
  {t u : τ} {m m' : μ} {a : Action μ τ} {es es' : List (Event μ τ)} {prio : τ → ℤ}

namespace State

variable (s) in
def depth (t : τ) (m : μ) : ℕ := if s.owner m = some t then s.lockCount m else 0

theorem take_owner : (s.take t m).owner = update s.owner m (some t) := by
  rw [State.take]
  split <;> rfl

theorem depth_take (hm : s.lockCount m = 0 ∨ s.owner m = some t)
    (hmax : s.owner m = some t → s.lockCount m + 1 < 2 ^ 32) :
    (s.take t m).depth u m' = s.depth u m' + if t = u ∧ m = m' then 1 else 0 := by
  have hlt : s.lockCount m + 1 < 2 ^ 32 := hm.elim (fun h => by simp [h]) hmax
  rw [depth, depth]
  have hcount : (s.take t m).lockCount = update s.lockCount m (s.lockCount m + 1) := by
    rw [State.take, Nat.mod_eq_of_lt hlt]
    split <;> rfl
  simp only [take_owner, hcount]
  obtain rfl | hne := eq_or_ne m' m
  · obtain rfl | hu := eq_or_ne t u
    · obtain hz | ho := hm
      · simp [hz]
      · simp [ho]
    · obtain hz | ho := hm
      · simp [hz]
      · simp [ho, hu]
  · simp [hne, hne.symm]

theorem Inv.ledger (h : s.Inv) (hok : s.CountFits a) (hm : Move cfg s a s' es) :
    es.count (.acquired t m) + s.depth t m = es.count (.released t m) + s'.depth t m := by
  cases hm with
  | @take u m₁ _ hpc hfree hor =>
    rw [depth_take hor hok]
    by_cases heq : u = t ∧ m₁ = m
    · simp [heq]
      omega
    · simp [heq]
  | @recursive u m₁ hpc ho hcount =>
    simp only [State.goto, depth]
    obtain rfl | hne := eq_or_ne m m₁
    · obtain rfl | hu := eq_or_ne t u
      · simp [ho]
        omega
      · simp [ho, hu.symm]
    · simp [hne, hne.symm]
  | @free u m₁ hl hq =>
    obtain ⟨-, ho, hc⟩ := h.locked u _ hl
    simp only [State.leave, State.free, depth]
    obtain rfl | hne := eq_or_ne m m₁
    · obtain rfl | hu := eq_or_ne t u
      · simp [ho, hc]
      · simp [ho, hu.symm]
    · simp [hne, hne.symm]
  | @grant u m₁ w l hl hq =>
    obtain ⟨-, ho, hc⟩ := h.locked u _ hl
    simp only [State.leave, State.grant, State.hold, State.setMutexPendedOn, depth]
    obtain rfl | hne := eq_or_ne m m₁
    · by_cases hu : u = t <;> by_cases hw : w = t <;> simp [ho, hc, hu, hw]
    · simp [hne, hne.symm]
  | boost | recalcAdjust | unlockAdjust =>
    exact congrArg₂ (· + ·) (by simp) (by simp [depth, State.stay, State.leave])
  | _ => exact congrArg (· + s.depth t m) (by simp)

theorem Inv.passes (h : s.Inv) (hm : Move cfg s a s' es) (ho : s.owner m = some t)
    (hne : s'.owner m ≠ some t) : a = .advance t ∧ s.mutexLock = some (t, .handOff m) ∧
      .released t m ∈ es ∧ s'.owner m = (s.sched.waitq m).head? := by
  cases hm with
  | @take u m₁ _ _ _ hor =>
    rw [take_owner] at hne
    obtain rfl | hm := eq_or_ne m m₁
    · obtain hz | hu := hor
      · simp [(h.free m).1 hz] at ho
      · simp [← hu, ho] at hne
    · simp [hm, ho] at hne
  | @free u m₁ hl hq =>
    obtain ⟨-, hou, -⟩ := h.locked u _ hl
    obtain rfl | hm := eq_or_ne m m₁
    · obtain rfl : u = t := Option.some.inj (hou.symm.trans ho)
      exact ⟨rfl, hl, by simp, by simp [State.leave, State.free, hq]⟩
    · simp [State.leave, State.free, hm, ho] at hne
  | @grant u m₁ w l hl hq =>
    obtain ⟨-, hou, -⟩ := h.locked u _ hl
    obtain rfl | hm := eq_or_ne m m₁
    · obtain rfl : u = t := Option.some.inj (hou.symm.trans ho)
      exact ⟨rfl, hl, by simp, by
        simp [State.leave, State.grant, State.hold, State.setMutexPendedOn, hq]⟩
    · simp [State.leave, State.grant, State.hold, State.setMutexPendedOn, hm, ho] at hne
  | boost | recalcAdjust | unlockAdjust => simp [State.stay, State.leave, ho] at hne
  | _ => exact absurd ho hne

end State

/-- What holds of the mutexes while `mutex_lock` is free, after the events `es`. -/
structure Owned (es : List (Event μ τ)) (s : State μ τ) : Prop where
  free : ∀ m, s.lockCount m = 0 ↔ s.owner m = none
  held : ∀ t m, (s.heldMutexes t).count m = if s.owner m = some t then 1 else 0
  waited : ∀ t m, t ∈ s.sched.waitq m → s.owner m ≠ none
  counted : ∀ t m, (es.count (.acquired t m) : ℤ) - es.count (.released t m) =
    if s.owner m = some t then s.lockCount m else 0

/-- A step takes a mutex from its owner only on the last unlock, and gives it at once to the
waiter that is served first, if there is one. -/
def HandsOver (cfg : Config) (s : State μ τ) : Prop :=
  ∀ a s' es t m, s.step cfg a = some (s', es) → s.owner m = some t → s'.owner m ≠ some t →
    a = .advance t ∧ s.lockCount m = 1 ∧ .released t m ∈ es ∧
      ((∀ u, u ∉ s.sched.waitq m) ∧ s'.owner m = none ∨
        ∃ w ∈ s.sched.waitq m, s'.owner m = some w ∧
          ∀ u ∈ s.sched.waitq m, u ≠ w → s.sched.Before w u)

theorem State.Inv.handsOver (h : s.Inv) : HandsOver cfg s := by
  intro a s' es t m hstep ho hne
  obtain ⟨ha, hl, hes, hhead⟩ := h.passes (move_of_step hstep) ho hne
  refine ⟨ha, (h.locked t _ hl).2.2, hes, ?_⟩
  cases hq : s.sched.waitq m with
  | nil => exact .inl ⟨by simp, by simpa [hq] using hhead⟩
  | cons w l =>
    refine .inr ⟨w, by simp, by simpa [hq] using hhead, fun u hu huw => ?_⟩
    exact (h.sched.head hq).2 u ((h.sched.mem_iff u m).1 (hq ▸ hu)) huw

theorem State.Inv.owned (h : s.Inv) (hfree : s.mutexLock = none)
    (hes : ∀ t m, es.count (.acquired t m) = es.count (.released t m) + s.depth t m) :
    Owned es s where
  free := h.free
  held t m := by
    have hmem := h.held t m
    simp only [Inv.not_releasing hfree, not_false_eq_true, and_true] at hmem
    split
    · next ho => exact List.count_eq_one_of_mem (h.nodup t) (hmem.2 ho)
    · next ho => exact List.count_eq_zero.2 fun hm => ho (hmem.1 hm)
  waited t m ht := (h.waited t m ((h.sched.mem_iff t m).1 ht)).1
  counted t m := by
    rw [hes, depth]
    split <;> omega

theorem mutex_ownership (h : Reaches (mutexes cfg prio) State.CountFits es s) :
    (s.mutexLock = none → Owned es s) ∧ HandsOver cfg s := by
  obtain ⟨hinv, hes⟩ : s.Inv ∧
      ∀ t m, es.count (.acquired t m) = es.count (.released t m) + s.depth t m := by
    refine Run.invariant (I := fun es s => s.Inv ∧ ∀ t m, es.count (.acquired t m) =
      es.count (.released t m) + s.depth t m) ⟨.init prio, ?_⟩ ?_ h
    · simp [State.depth, mutexes, State.init]
    rintro es s a s' es' ⟨hinv, hes⟩ hok hstep
    have hmove := State.move_of_step hstep
    refine ⟨hinv.move hok hmove, fun t m => ?_⟩
    have hledger := hinv.ledger (t := t) (m := m) hok hmove
    rw [List.count_append, List.count_append, hes]
    omega
  exact ⟨fun hfree => hinv.owned hfree hes, hinv.handsOver⟩

instance : ∀ a : Action μ τ, Decidable (s.CountFits a)
  | .lock t m _ => inferInstanceAs (Decidable (s.owner m = some t → s.lockCount m + 1 < 2 ^ 32))
  | .unlock .. | .advance _ | .expire _ | .timeout _ => inferInstanceAs (Decidable True)

/-- Thread 0 locks the mutex twice, threads 1 and 2 wait for it, and thread 2, of the better
priority, gets it. -/
theorem mutex_ownership_passes : ∃ es s,
    Reaches (mutexes ⟨-128, true⟩ fun t : Fin 3 => -(t : ℤ)) State.CountFits es s ∧
    s.mutexLock = none ∧ s.owner 0 = some 2 ∧ s.lockCount 0 = 1 ∧ s.sched.waitq 0 = [1] ∧
    Owned es s ∧ HandsOver ⟨-128, true⟩ (s : State (Fin 1) (Fin 3)) := by
  obtain ⟨es, s, hrun, hfree, ho, hc, hq⟩ := Reaches.of_exec
    (mutexes ⟨-128, true⟩ fun t : Fin 3 => -(t : ℤ)) State.CountFits
    [.lock 0 0 .forever, .lock 0 0 .forever, .lock 1 0 .forever, .advance 1, .advance 1, .advance 1,
      .advance 1, .lock 2 0 .ticks, .advance 2, .advance 2, .advance 2, .advance 2, .unlock 0 0,
      .advance 0, .unlock 0 0, .advance 0, .advance 0, .advance 0, .advance 0, .advance 0]
    (fun _ s => s.mutexLock = none ∧ s.owner (0 : Fin 1) = some 2 ∧ s.lockCount 0 = 1 ∧
      s.sched.waitq 0 = [1]) (by decide +kernel)
  obtain ⟨howned, hover⟩ := mutex_ownership hrun
  exact ⟨es, s, hrun, hfree, ho, hc, hq, howned hfree, hover⟩

theorem run_relock (cfg : Config) (prio : τ → ℤ) (ok : State μ τ → Action μ τ → Prop) (hpc : s.pc t = .outside)
    (hfree : s.mutexLock = none) (ho : s.owner m = some t)
    (hok : ∀ c, ok { s with lockCount := update s.lockCount m c } (.lock t m .forever))
    (hc : s.lockCount m = 1) (n : ℕ) (hn : n < 2 ^ 32) : ∃ es, Run (mutexes cfg prio) ok s es
      { s with lockCount := update s.lockCount m ((n + 1) % 2 ^ 32) } := by
  induction n with
  | zero =>
    refine ⟨[], ?_⟩
    rw [Nat.one_mod_eq_one.2 (by simp), ← hc, update_eq_self]
    exact .refl
  | succ n ih =>
    obtain ⟨es, hrun⟩ := ih (by omega)
    have hself : update s.owner m (some t) = s.owner := by rw [← ho, update_eq_self]
    have hstep : (mutexes cfg prio).step
        { s with lockCount := update s.lockCount m ((n + 1) % 2 ^ 32) }
        (.lock t m .forever) =
        some ({ s with lockCount := update s.lockCount m ((n + 1 + 1) % 2 ^ 32) },
          [.acquired t m, .returned t 0]) := by
      simp [mutexes, State.step, State.lock, State.take, hpc, hfree, ho, hself]
      omega
    exact ⟨_, hrun.trans (.single _ (hok _) hstep)⟩

/-- After 2^32 locks the count is 0 again, and another thread gets the mutex as well. -/
theorem mutex_count_wraps : ∃ es s,
    Reaches (mutexes ⟨-128, true⟩ fun _ : Fin 2 => 0) (fun _ _ => True) es s ∧
    s.mutexLock = none ∧ s.owner (0 : Fin 1) = some 0 ∧ s.lockCount 0 = 0 ∧ ¬Owned es s ∧
    ∃ s' es', s.step ⟨-128, true⟩ (.lock 1 0 .noWait) = some (s', es') ∧
      .returned 1 0 ∈ es' ∧ s'.owner 0 = some 1 := by
  have ho : ((State.init fun _ => 0).take (0 : Fin 2) (0 : Fin 1)).owner 0 = some 0 := rfl
  obtain ⟨es, hrun⟩ := run_relock ⟨-128, true⟩ (fun _ => 0) (fun _ _ => True) rfl rfl ho
    (fun _ => trivial) rfl (2 ^ 32 - 1) (by omega)
  refine ⟨_, _, .head (a := .lock 0 0 .forever) trivial rfl hrun, rfl, rfl, rfl, fun h => ?_, _, _,
    rfl, by simp, rfl⟩
  exact absurd ((h.free 0).1 rfl) (by decide)

end ZephyrRtos.Mutex
