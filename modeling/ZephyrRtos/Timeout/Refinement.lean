import ZephyrRtos.Timeout.Frontend

/-! The generic announce loop over an abstract queue.  A backend that keeps a finite
map from timeouts to expiry ticks, operation by operation, fires every timeout of
every run at its tick. -/

namespace ZephyrRtos.Timeout

open List Lib

variable {τ : Type} [DecidableEq τ] {Q : Queue τ} {cfg : Config}

def oldestFirst (p : List (τ × ℤ)) (x : τ × ℤ) : Prop :=
  p.find? (hasKey x.2) = some x

/-- `R s c p` says that backend state `s` at tick `c` holds the pending timeouts `p`.
`adm` bounds the expiries the backend can represent, `pick` is the order it promises. -/
structure Refines (D : DrainOps Q) (adm : ℕ → ℤ → Prop) (pick : List (τ × ℤ) → τ × ℤ → Prop)
    (R : Q.State → ℕ → List (τ × ℤ) → Prop) : Prop where
  init : R Q.init 0 []
  inactive : ∀ {s c p} t, R s c p → (Q.isInactive s t = true ↔ t ∉ p.map Prod.fst)
  nodup : ∀ {s c p}, R s c p → (p.map Prod.fst).Nodup
  due : ∀ {s c p}, R s c p → ∀ x ∈ p, (c : ℤ) ≤ x.2
  insert : ∀ {s c p t d s' b}, R s c p → t ∉ p.map Prod.fst → 0 ≤ d → d ≤ int64Max → adm c d →
    Q.insert s c t d = some (s', b) → R s' c (p ++ [(t, c + d)])
  remove : ∀ {s c p t}, R s c p → t ∈ p.map Prod.fst → R (Q.remove s c t).1 c (dropKey t p)
  gap : ∀ {s c p}, R s c p → (∀ x ∈ p, (c : ℤ) < x.2) →
    0 < D.nextGap s c ∧ D.nextGap s c ≤ int32Max ∧ ∀ x ∈ p, c + D.nextGap s c ≤ x.2
  advance : ∀ {s c p} {dt : ℕ}, R s c p → (∀ x ∈ p, (c : ℤ) < x.2) → 0 < dt →
    (dt : ℤ) ≤ D.nextGap s c → R (D.advance s c dt) (c + dt) p
  popNone : ∀ {s c p}, R s c p → D.popDue s c = none → ∀ x ∈ p, (c : ℤ) < x.2
  popSome : ∀ {s c p t s'}, R s c p → D.popDue s c = some (t, s') →
    (t, (c : ℤ)) ∈ p ∧ pick p (t, c) ∧ R s' c (dropKey t p)

theorem Refines.bounded {D : DrainOps Q} {adm : ℕ → ℤ → Prop} {pick : List (τ × ℤ) → τ × ℤ → Prop}
    {R : Q.State → ℕ → List (τ × ℤ) → Prop} (r : Refines D adm pick R) (b : ℤ) :
    Refines D (fun c d => adm c d ∧ d ≤ b) pick
      (fun s c p => R s c p ∧ ∀ x ∈ p, x.2 - c ≤ b) where
  init := ⟨r.init, by simp⟩
  inactive t h := r.inactive t h.1
  nodup h := r.nodup h.1
  due h := r.due h.1
  insert h ht h0 hm hc hins := ⟨r.insert h.1 ht h0 hm hc.1 hins,
    forall_mem_append.2 ⟨h.2, by simpa [add_comm] using hc.2⟩⟩
  remove h ht := ⟨r.remove h.1 ht, fun x hx => h.2 x (mem_dropKey.1 hx).1⟩
  gap h hf := r.gap h.1 hf
  advance h hf h0 hd := by
    refine ⟨r.advance h.1 hf h0 hd, fun x hx => ?_⟩
    have := h.2 x hx
    omega
  popNone h hpop := r.popNone h.1 hpop
  popSome h hpop := by
    obtain ⟨hmem, hpick, hrel⟩ := r.popSome h.1 hpop
    exact ⟨hmem, hpick, hrel, fun x hx => h.2 x (mem_dropKey.1 hx).1⟩

structure Tracks (R : Q.State → ℕ → List (τ × ℤ) → Prop) (pick : List (τ × ℤ) → τ × ℤ → Prop)
    (es : List (Event τ)) (k : Kernel Q) : Prop where
  rel : R k.queue k.currTick (pendingOf es)
  future : k.phase = .idle ∨ k.phase = .top → ∀ x ∈ pendingOf es, (k.currTick : ℤ) < x.2
  cpu : k.phase = .idle ↔ k.announcingCpu = none
  remaining : k.announceRemaining < 2 ^ 32
  onTime : OnTime pick es
  ticks : (firedTicks es).Pairwise (· ≤ ·) ∧ ∀ c ∈ firedTicks es, c ≤ k.currTick

/-- The relative branch of `z_add_timeout` does not overflow `k_ticks_t`. -/
def Action.fits (cfg : Config) (k : Kernel Q) : Action τ → Prop
  | .add cpu _ ticks sysElapsed => 0 ≤ ticks →
    ticks + elapsed cfg k cpu sysElapsed + (if thisCpuAnnouncing k cpu then 0 else 1) ≤ int64Max
  | _ => True

instance Action.decidableFits (cfg : Config) (k : Kernel Q) (a : Action τ) :
    Decidable (a.fits cfg k) :=
  match a with
  | .add cpu _ ticks sysElapsed => inferInstanceAs (Decidable (0 ≤ ticks →
      ticks + elapsed cfg k cpu sysElapsed + (if thisCpuAnnouncing k cpu then 0 else 1) ≤ int64Max))
  | .abort .. | .announce .. | .loop | .handlerReturn => inferInstanceAs (Decidable True)

section

omit [DecidableEq τ]

theorem addDticks_nonneg_iff (hticks : ticks ≤ int64Max) :
    0 ≤ addDticks cfg k cpu ticks sysElapsed ↔ (Action.add cpu t ticks sysElapsed).fits cfg k := by
  simp only [addDticks, isTimeoutRelative, decide_eq_true_eq, Action.fits]
  split
  · next hrel =>
    simp only [hrel, true_imp_iff]
    have hel : elapsed cfg k cpu sysElapsed < 2 ^ 32 := by
      simp only [elapsed]
      split
      · norm_num
      · exact Nat.mod_lt _ (by norm_num)
    constructor
    · intro h
      by_contra hover
      rw [int64_of_overflow (by omega) (by simp only [int64Max] at hticks ⊢; omega)] at h
      simp only [int64Max] at hticks
      omega
    · intro h
      rw [int64_eq h]
      omega
  · next hrel => simp [hrel]

theorem addDticks_of_fits (h : (Action.add cpu t ticks sysElapsed).fits cfg k) :
    0 ≤ addDticks cfg k cpu ticks sysElapsed ∧
      addDticks cfg k cpu ticks sysElapsed ≤ int64Max ∧
      (k.announcingCpu = none → 1 ≤ addDticks cfg k cpu ticks sysElapsed) := by
  simp only [addDticks, isTimeoutRelative, decide_eq_true_eq]
  split
  · next hrel =>
    have hmax := h hrel
    rw [int64_eq hmax]
    refine ⟨by omega, hmax, fun hcpu => ?_⟩
    have : thisCpuAnnouncing k cpu = false := by simp [thisCpuAnnouncing, hcpu]
    simp only [this, Bool.false_eq_true, if_false]
    omega
  · have hr := (int64_range (zTickAbs ticks - k.currTick)).2
    refine ⟨by omega, max_le (by simp only [int64Max]; norm_num) hr, fun _ => le_max_left _ _⟩

end

theorem loopDt_eq (h0 : 0 < gap) (h1 : gap ≤ int32Max) : loopDt gap n = min gap n := by
  have hg : (uint32 gap : ℤ) = gap := uint32_eq h0.le (by simp only [int32Max] at h1; omega)
  simp only [loopDt]
  split
  · rw [int32_eq, min_eq_right (by omega)]
  · next h => rw [min_eq_left (by omega)]

section Loop

variable {D : DrainOps Q} {adm : ℕ → ℤ → Prop} {pick : List (τ × ℤ) → τ × ℤ → Prop}
  {R : Q.State → ℕ → List (τ × ℤ) → Prop} {k : Kernel Q} {es : List (Event τ)}

theorem Refines.loopDt_spec (r : Refines D adm pick R) (h : Tracks R pick es k)
    (hp : k.phase = .top) (hr : 0 < k.announceRemaining) :
    ∃ dt : ℕ, loopDt (D.nextGap k.queue k.currTick) k.announceRemaining = dt ∧ 0 < dt ∧
      dt ≤ k.announceRemaining ∧ (dt : ℤ) ≤ D.nextGap k.queue k.currTick := by
  obtain ⟨h0, h1, -⟩ := r.gap h.rel (h.future (.inr hp))
  rw [loopDt_eq h0 h1]
  refine ⟨(min (D.nextGap k.queue k.currTick) k.announceRemaining).toNat, ?_, ?_, ?_, ?_⟩ <;> omega

theorem Refines.genericLoop_top (cfg : Config) (r : Refines D adm pick R) (h : Tracks R pick es k)
    (hp : k.phase = .top) (hr : 0 < k.announceRemaining) :
    ∃ dt : ℕ, 0 < dt ∧ dt ≤ k.announceRemaining ∧ genericLoop D cfg k = { k with
      queue := D.advance k.queue k.currTick dt
      currTick := k.currTick + dt
      announceRemaining := k.announceRemaining - dt
      phase := .drain 0 } ∧ Tracks R pick es (genericLoop D cfg k) := by
  obtain ⟨dt, hdt, h0, hle, hgap⟩ := r.loopDt_spec h hp hr
  have hrem := h.remaining
  have hsub : (uint32 (k.announceRemaining - dt) : ℤ) = k.announceRemaining - dt := uint32_eq
  have heq : genericLoop D cfg k = { k with
      queue := D.advance k.queue k.currTick dt
      currTick := k.currTick + dt
      announceRemaining := k.announceRemaining - dt
      phase := .drain 0 } := by
    simp only [genericLoop, hp, if_pos hr, hdt]
    congr 1
    omega
  refine ⟨dt, h0, hle, heq, ?_⟩
  rw [heq]
  exact {
    rel := r.advance h.rel (h.future (.inr hp)) h0 hgap
    future := by simp
    cpu := by simpa [hp] using h.cpu
    remaining := by simp only; omega
    onTime := h.onTime
    ticks := ⟨h.ticks.1, fun c hc => (h.ticks.2 c hc).trans (Nat.le_add_right _ _)⟩ }

theorem Refines.genericLoop_end (h : Tracks R pick es k)
    (hp : k.phase = .top) (hr : k.announceRemaining = 0) :
    Tracks R pick es (genericLoop D cfg k) := by
  have heq : genericLoop D cfg k = announceEnd cfg k := by simp [genericLoop, hp, hr]
  rw [heq, announceEnd]
  obtain ⟨h1, h2, h3, h4⟩ := reprogram_clock cfg
    { k with announcingCpu := none, phase := .idle } 0
  exact {
    rel := by rw [reprogram_queue, h1]; exact h.rel
    future := by rw [h1]; exact fun _ => h.future (.inr hp)
    cpu := by rw [h3, h4]; simp
    remaining := by rw [h2]; exact h.remaining
    onTime := h.onTime
    ticks := by rw [h1]; exact h.ticks }

section

variable (r : Refines D adm pick R) (h : Tracks R pick es k)
include r h

theorem Refines.genericLoop_drain (hp : k.phase = .drain n) :
    Tracks R pick (es ++ (genericLoop D cfg k).dispatched) (genericLoop D cfg k) := by
  simp only [genericLoop, hp]
  cases hpop : D.popDue k.queue k.currTick with
  | none =>
    simp only [Kernel.dispatched, append_nil]
    exact {
      rel := h.rel
      future _ := r.popNone h.rel hpop
      cpu := by simpa [hp] using h.cpu
      remaining := h.remaining
      onTime := h.onTime
      ticks := h.ticks }
  | some x =>
    obtain ⟨hmem, hpick, hrel⟩ := r.popSome h.rel hpop
    simp only [Kernel.dispatched]
    refine {
      rel := by simpa [Event.apply] using hrel
      future := by simp
      cpu := by simpa [hp] using h.cpu
      remaining := h.remaining
      onTime := h.onTime.snoc ?_
      ticks := ?_ }
    · rintro - - ⟨⟩
      exact ⟨hmem, r.due h.rel, hpick⟩
    simp only [firedTicks_append, firedTicks, pairwise_append, mem_append]
    refine ⟨⟨h.ticks.1, by simp, ?_⟩, ?_⟩
    · rintro a ha b hb
      rw [mem_singleton.1 hb]
      exact h.ticks.2 a ha
    · rintro c (hc | hc)
      · exact h.ticks.2 c hc
      · exact (mem_singleton.1 hc).le

theorem Refines.genericLoop_tracks (hl : k.lockFree = false) :
    Tracks R pick (es ++ (genericLoop D cfg k).dispatched) (genericLoop D cfg k) := by
  cases hp : k.phase with
  | idle => simp [Kernel.lockFree, hp] at hl
  | handler n => simp [Kernel.lockFree, hp] at hl
  | drain n => exact r.genericLoop_drain h hp
  | top =>
    by_cases hr : 0 < k.announceRemaining
    · obtain ⟨dt, -, -, heq, ht⟩ := r.genericLoop_top cfg h hp hr
      have : (genericLoop D cfg k).dispatched = [] := by simp [heq, Kernel.dispatched]
      rwa [this, append_nil]
    · have hr : k.announceRemaining = 0 := by omega
      have : (genericLoop D cfg k).dispatched = [] := by simp [genericLoop, hp, hr]
      rw [this, append_nil]
      exact genericLoop_end h hp hr

end

end Loop

section Runs

variable {D : DrainOps Q} {adm : ℕ → ℤ → Prop} {pick : List (τ × ℤ) → τ × ℤ → Prop}
  {R : Q.State → ℕ → List (τ × ℤ) → Prop}

/-- The conditions on a step under which the refinement carries over. -/
def Action.meets (adm : ℕ → ℤ → Prop) (cfg : Config) (k : Kernel Q) (a : Action τ) : Prop :=
  a.fits cfg k ∧ ∀ cpu t ticks sysElapsed, a = .add cpu t ticks sysElapsed →
    adm k.currTick (addDticks cfg k cpu ticks sysElapsed)

instance Action.decidableMeets (adm : ℕ → ℤ → Prop) [∀ c d, Decidable (adm c d)] (cfg : Config)
    (k : Kernel Q) (a : Action τ) : Decidable (a.meets adm cfg k) :=
  match a with
  | .add cpu t ticks sysElapsed =>
    decidable_of_iff ((Action.add cpu t ticks sysElapsed).fits cfg k ∧
      adm k.currTick (addDticks cfg k cpu ticks sysElapsed))
      ⟨fun h => ⟨h.1, by rintro _ _ _ _ ⟨⟩; exact h.2⟩, fun h => ⟨h.1, h.2 _ _ _ _ rfl⟩⟩
  | .abort .. | .announce .. | .loop | .handlerReturn => isTrue ⟨trivial, by simp⟩

section

variable (r : Refines D adm pick R)
include r

theorem Refines.step_tracks (h : Tracks R pick es k) (ha : a.meets adm cfg k)
    (hs : step (genericBackend D) cfg k a = some (k', es')) : Tracks R pick (es ++ es') k' := by
  cases a with
  | add cpu t ticks sysElapsed =>
    obtain ⟨hlf, hin, -⟩ := step_add hs
    obtain ⟨rfl, rfl⟩ | ⟨-, first, hins, rfl, hc, rfl⟩ := step_add_queue hs
    · simpa using h
    obtain ⟨hd0, hdm, hd1⟩ := addDticks_of_fits ha.1
    have hrel := r.insert h.rel ((r.inactive t h.rel).1 hin) hd0 hdm (ha.2 _ _ _ _ rfl) hins
    refine {
      rel := by rw [hc.currTick]; simpa [Event.apply] using hrel
      future := ?_
      cpu := by rw [hc.phase, hc.announcingCpu]; exact h.cpu
      remaining := by rw [hc.announceRemaining]; exact h.remaining
      onTime := h.onTime.not_fired (by simp)
      ticks := by rw [hc.currTick]; simpa [firedTicks] using h.ticks }
    -- Outside an announce the delta is at least one tick.
    intro hp x hx
    rw [hc.phase] at hp
    have hidle : k.phase = .idle := by
      rcases hp with hp | hp
      · exact hp
      · simp [Kernel.lockFree, hp] at hlf
    have hone := hd1 (h.cpu.1 hidle)
    rw [hc.currTick]
    simp only [pendingOf_snoc, Event.apply, mem_append, mem_singleton] at hx
    rcases hx with hx | rfl
    · exact h.future (.inl hidle) x hx
    · omega
  | abort cpu t sysElapsed =>
    obtain ⟨hc, ⟨-, rfl, hq⟩ | ⟨hin, rfl, hq⟩⟩ := step_abort_queue hs
    · rw [append_nil]
      exact {
        rel := by rw [hc.currTick, hq]; exact h.rel
        future := by rw [hc.phase, hc.currTick]; exact h.future
        cpu := by rw [hc.phase, hc.announcingCpu]; exact h.cpu
        remaining := by rw [hc.announceRemaining]; exact h.remaining
        onTime := h.onTime
        ticks := by rw [hc.currTick]; exact h.ticks }
    · have hmem : t ∈ (pendingOf es).map Prod.fst := by
        by_contra hnot
        exact absurd (hin.symm.trans ((r.inactive t h.rel).2 hnot)) (by simp)
      exact {
        rel := by rw [hc.currTick, hq]; simpa [Event.apply] using r.remove h.rel hmem
        future := by
          rw [hc.phase, hc.currTick]
          intro hp x hx
          simp only [pendingOf_snoc, Event.apply, mem_dropKey] at hx
          exact h.future hp x hx.1
        cpu := by rw [hc.phase, hc.announcingCpu]; exact h.cpu
        remaining := by rw [hc.announceRemaining]; exact h.remaining
        onTime := h.onTime.not_fired (by simp)
        ticks := by rw [hc.currTick]; simpa [firedTicks] using h.ticks }
  | announce cpu ticks =>
    obtain ⟨-, hlt, rfl, ⟨-, -, rfl⟩ | ⟨hnone, rfl⟩⟩ := step_announce hs
    · exact {
        rel := by simpa [Event.apply] using h.rel
        future := by simpa [Event.apply] using h.future
        cpu := h.cpu
        remaining := Nat.mod_lt _ (by norm_num)
        onTime := h.onTime.not_fired (by simp)
        ticks := by simpa [firedTicks] using h.ticks }
    · have hidle := h.cpu.2 hnone
      exact {
        rel := by simpa [Event.apply] using h.rel
        future _ := by simpa [Event.apply] using h.future (.inl hidle)
        cpu := by simp
        remaining := hlt
        onTime := h.onTime.not_fired (by simp)
        ticks := by simpa [firedTicks] using h.ticks }
  | loop =>
    obtain ⟨hl, rfl, rfl⟩ := step_loop hs
    exact r.genericLoop_tracks h hl
  | handlerReturn =>
    obtain ⟨n, hp, rfl, rfl⟩ := step_return hs
    rw [append_nil]
    exact {
      rel := h.rel
      future := by simp
      cpu := by simpa [hp] using h.cpu
      remaining := h.remaining
      onTime := h.onTime
      ticks := h.ticks }

theorem Refines.boot_tracks : Tracks R pick [] (Kernel.boot Q) where
  rel := r.init
  future := by simp
  cpu := by simp [Kernel.boot]
  remaining := by simp [Kernel.boot]
  onTime es₁ t c es₂ h := by simp at h
  ticks := by simp [firedTicks]

theorem Refines.reaches_tracks
    (h : Reaches (system (genericBackend D) cfg) (Action.meets adm cfg) es k) :
    Tracks R pick es k :=
  Run.invariant (I := Tracks R pick) r.boot_tracks
    (fun _ _ _ _ _ hi ha hs => r.step_tracks hi ha hs) h

end

def Action.foldFits (k : Kernel Q) : Action τ → Prop
  | .announce _ ticks => anyCpuAnnouncing k → k.announceRemaining + ticks < 2 ^ 32
  | _ => True

instance Action.decidableFoldFits (k : Kernel Q) (a : Action τ) : Decidable (a.foldFits k) :=
  match a with
  | .announce _ ticks =>
    inferInstanceAs (Decidable (anyCpuAnnouncing k → k.announceRemaining + ticks < 2 ^ 32))
  | .add .. | .abort .. | .loop | .handlerReturn => inferInstanceAs (Decidable True)

/-- Every announced tick is either in `curr_tick` or still to be processed. -/
structure Accounts (es : List (Event τ)) (k : Kernel Q) : Prop where
  total : k.currTick + k.announceRemaining = announcedOf es
  settled : k.phase = .idle → k.announceRemaining = 0

theorem Accounts.of_sameClock (h : Accounts es k) (hc : SameClock k k') : Accounts es k' where
  total := by rw [hc.currTick, hc.announceRemaining]; exact h.total
  settled := by rw [hc.phase, hc.announceRemaining]; exact h.settled

theorem Refines.genericLoop_accounts (r : Refines D adm pick R) (h : Tracks R pick es k)
    (hacc : Accounts es k) (hl : k.lockFree = false) :
    Accounts (es ++ (genericLoop D cfg k).dispatched) (genericLoop D cfg k) := by
  cases hp : k.phase with
  | idle => simp [Kernel.lockFree, hp] at hl
  | handler n => simp [Kernel.lockFree, hp] at hl
  | drain n =>
    simp only [genericLoop, hp]
    cases D.popDue k.queue k.currTick with
    | none => exact ⟨by simpa [Kernel.dispatched] using hacc.total, by simp⟩
    | some x => exact ⟨by simpa [Kernel.dispatched, announcedOf] using hacc.total, by simp⟩
  | top =>
    by_cases hr : 0 < k.announceRemaining
    · obtain ⟨dt, -, hle, heq, -⟩ := r.genericLoop_top cfg h hp hr
      have htotal := hacc.total
      rw [heq]
      refine ⟨?_, by simp⟩
      simp only [Kernel.dispatched, append_nil]
      omega
    have hr : k.announceRemaining = 0 := by omega
    have heq : genericLoop D cfg k = announceEnd cfg k := by simp [genericLoop, hp, hr]
    rw [heq, end_dispatched, append_nil]
    refine .of_sameClock ?_
      (reprogram_clock cfg _ 0)
    exact ⟨hacc.total, fun _ => hr⟩

theorem Refines.step_accounts (r : Refines D adm pick R) (h : Tracks R pick es k)
    (hacc : Accounts es k) (ha : a.foldFits k)
    (hs : step (genericBackend D) cfg k a = some (k', es')) :
    Accounts (es ++ es') k' := by
  cases a with
  | add cpu t ticks sysElapsed =>
    obtain ⟨rfl, rfl⟩ | ⟨-, -, -, -, hc, rfl⟩ := step_add_queue hs
    · simpa using hacc
    · refine .of_sameClock ?_ hc
      exact ⟨by simpa [announcedOf] using hacc.total, hacc.settled⟩
  | abort cpu t sysElapsed =>
    obtain ⟨hc, ⟨-, rfl, -⟩ | ⟨-, rfl, -⟩⟩ := step_abort_queue hs <;>
      exact .of_sameClock ⟨by simpa [announcedOf] using hacc.total, hacc.settled⟩ hc
  | announce cpu ticks =>
    have htotal := hacc.total
    obtain ⟨-, -, rfl, ⟨-, hsome, rfl⟩ | ⟨hnone, rfl⟩⟩ := step_announce hs
    · have hlt := ha hsome
      refine ⟨?_, fun hp => ?_⟩
      · simp only [announcedOf_append, announcedOf, Nat.mod_eq_of_lt hlt]
        omega
      · rw [h.cpu.1 hp] at hsome
        simp at hsome
    · have hzero := hacc.settled (h.cpu.2 hnone)
      refine ⟨?_, by simp⟩
      simp only [announcedOf_append, announcedOf]
      omega
  | loop =>
    obtain ⟨hl, rfl, rfl⟩ := step_loop hs
    exact r.genericLoop_accounts h hacc hl
  | handlerReturn =>
    obtain ⟨-, -, rfl, rfl⟩ := step_return hs
    exact ⟨by simpa using hacc.total, by simp⟩

theorem Refines.reaches_accounts (r : Refines D adm pick R)
    (h : Reaches (system (genericBackend D) cfg) (fun k a => a.meets adm cfg k ∧ a.foldFits k) es k) :
    Tracks R pick es k ∧ Accounts es k :=
  Run.invariant (I := fun es k => Tracks R pick es k ∧ Accounts es k)
    ⟨r.boot_tracks, rfl, fun _ => rfl⟩
    (fun _ _ _ _ _ hi ha hs => ⟨r.step_tracks hi.1 ha.1 hs, r.step_accounts hi.1 hi.2 ha.2 hs⟩) h

section

omit [DecidableEq τ]

theorem Action.fits_of_unattended {k : Kernel Q} {a : Action τ} (h : a.unattended) :
    a.fits cfg k := by
  rcases h with rfl | rfl <;> trivial

end

def stepsLeft (es : List (Event τ)) (k : Kernel Q) : ℕ :=
  3 * (k.announceRemaining + (pendingOf es).length) +
    match k.phase with
    | .idle | .top => 0
    | .drain _ => 1
    | .handler _ => 2

theorem Refines.loop_stepsLeft (r : Refines D adm pick R) (h : Tracks R pick es k)
    (hl : k.lockFree = false) :
    (genericLoop D cfg k).phase = .idle ∨
      stepsLeft (es ++ (genericLoop D cfg k).dispatched) (genericLoop D cfg k) <
        stepsLeft es k := by
  cases hp : k.phase with
  | idle => simp [Kernel.lockFree, hp] at hl
  | handler n => simp [Kernel.lockFree, hp] at hl
  | top =>
    by_cases hr : 0 < k.announceRemaining
    · obtain ⟨dt, h0, -, heq, -⟩ := r.genericLoop_top cfg h hp hr
      simp only [heq, Kernel.dispatched, append_nil, stepsLeft]
      omega
    · simp [genericLoop, hp, hr, announceEnd, (reprogram_clock cfg _ 0).phase]
  | drain n =>
    cases hpop : D.popDue k.queue k.currTick with
    | none => simp [genericLoop, hp, hpop, Kernel.dispatched, stepsLeft]
    | some x =>
      obtain ⟨t, q⟩ := x
      obtain ⟨hmem, -⟩ := r.popSome h.rel hpop
      have hlt : (dropKey t (pendingOf es)).length < (pendingOf es).length :=
        length_filter_lt_length_iff_exists.2 ⟨_, hmem, by simp⟩
      simp only [genericLoop, hp, hpop, Kernel.dispatched, stepsLeft, pendingOf_snoc, Event.apply]
      omega

variable (cfg) in
theorem Refines.completes (r : Refines D adm pick R) (h : Tracks R pick es k) :
    ∃ es' k', Run (system (genericBackend D) cfg) (fun _ a => a.unattended) k es' k' ∧
      k'.phase = .idle := by
  refine completes_of_measure (B := genericBackend D) (I := Tracks R pick) (μ := stepsLeft) ?_ ?_ es h
  · exact fun es k h hl => ⟨r.genericLoop_tracks h hl, r.loop_stepsLeft h hl⟩
  intro es k n h hp
  have hs : step (genericBackend D) cfg k .handlerReturn =
      some ({ k with inflight := none, phase := .drain n }, []) := step_return_eq cfg hp
  have ht := r.step_tracks (a := .handlerReturn) h ⟨trivial, by simp⟩ hs
  rw [append_nil] at ht
  exact ⟨ht, by simp [stepsLeft, hp]⟩

end Runs

/-- The queue states `I`, closed under advancing by nothing, make the loop advance by
nothing and fire nothing. -/
structure Stalls (D : DrainOps Q) (c : ℕ) (I : Q.State → Prop) : Prop where
  gap : ∀ {s}, I s → D.nextGap s c = 0
  advance : ∀ {s}, I s → I (D.advance s c 0)
  popDue : ∀ {s}, I s → D.popDue s c = none

section Stalls

variable {D : DrainOps Q} {c : ℕ} {I : Q.State → Prop}

/-- The announcing CPU is in its loop over such a queue. -/
structure Stalled (c : ℕ) (I : Q.State → Prop) (k : Kernel Q) : Prop where
  queue : I k.queue
  tick : k.currTick = c
  remaining : 0 < k.announceRemaining
  inRange : k.announceRemaining < 2 ^ 32
  phase : k.phase = .top ∨ k.phase = .drain 0

section

omit [DecidableEq τ]

theorem Stalled.lockFree (h : Stalled c I k) : k.lockFree = false := by
  rcases h.phase with hp | hp <;> simp [Kernel.lockFree, hp]

theorem Stalls.loop (st : Stalls D c I) (h : Stalled c I k) :
    Stalled c I (genericLoop D cfg k) ∧ (genericLoop D cfg k).dispatched = [] := by
  obtain ⟨hI, rfl, hpos, hlt, hphase⟩ := h
  rcases hphase with hp | hp
  · have hdt : loopDt (D.nextGap k.queue k.currTick) k.announceRemaining = 0 := by
      rw [st.gap hI, loopDt]
      simp [uint32]
    have hrem : uint32 (k.announceRemaining - 0) = k.announceRemaining := by
      have := uint32_eq (x := k.announceRemaining - 0)
      omega
    simp only [genericLoop, hp, if_pos hpos, hdt, hrem, Kernel.dispatched]
    exact ⟨⟨st.advance hI, by simp, hpos, hlt, .inr rfl⟩, trivial⟩
  · simp only [genericLoop, hp, st.popDue hI, Kernel.dispatched]
    exact ⟨⟨hI, rfl, hpos, hlt, .inl rfl⟩, trivial⟩

end

theorem Stalls.run (st : Stalls D c I) (h : Stalled c I k)
    (hr : Run (system (genericBackend D) cfg) (fun _ _ => True) k es k') :
    es = [] ∧ Stalled c I k' := by
  refine Run.invariant (I := fun es k => es = [] ∧ Stalled c I k) ⟨rfl, h⟩ ?_ hr
  rintro - u a v es' ⟨rfl, hu⟩ - hs
  obtain ⟨rfl, rfl⟩ := step_of_locked (B := genericBackend D) hu.lockFree hs
  exact ⟨(st.loop hu).2, (st.loop hu).1⟩

end Stalls

end ZephyrRtos.Timeout
