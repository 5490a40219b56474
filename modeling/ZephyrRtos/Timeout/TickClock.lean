import ZephyrRtos.Timeout.BucketLaws
import ZephyrRtos.Timeout.DeltaList
import ZephyrRtos.Timeout.MinHeap
import ZephyrRtos.Timeout.SkipListLaws
import ZephyrRtos.Timeout.WheelRuns

/-! `sys_clock_tick_get` against real time.  The kernel runs beside a counter that any
CPU can read through it, also while another CPU is announcing. -/

namespace ZephyrRtos.Timeout

open List Lib

variable {τ : Type} {Q : Queue τ}

/-- The kernel, the ticks that have really passed, and the tick up to which the driver
has announced them. -/
structure Clocked (Q : Queue τ) where
  kernel : Kernel Q
  real : ℕ
  baseline : ℕ

inductive ClockAction (τ : Type)
  | kernel (a : Action τ)
  | pass (ticks : ℕ)
  | tickGet (cpu : ℕ)

inductive ClockEvent (τ : Type)
  | kernel (e : Event τ)
  | read (cpu value : ℕ)
  deriving DecidableEq

def Clocked.sysClockElapsed (s : Clocked Q) : ℕ := s.real - s.baseline

/-- The driver announces ticks that have passed, and reports those since. -/
def Clocked.allows (s : Clocked Q) : Action τ → Bool
  | .add _ _ _ sysElapsed | .abort _ _ sysElapsed => decide (sysElapsed = s.sysClockElapsed)
  | .announce _ ticks => decide (ticks ≤ s.sysClockElapsed)
  | .loop | .handlerReturn => true

/-- A CPU other than the announcing one reads the clock once it gets the lock. -/
def clockStep [DecidableEq τ] (B : Backend τ) (cfg : Config) (s : Clocked B.queue) :
    ClockAction τ → Option (Clocked B.queue × List (ClockEvent τ))
  | .kernel a =>
    if s.allows a then
      (step B cfg s.kernel a).map fun r =>
        ({ s with kernel := r.1, baseline := s.baseline + announcedOf r.2 }, r.2.map .kernel)
    else none
  | .pass ticks => some ({ s with real := s.real + ticks }, [])
  | .tickGet cpu =>
    if s.kernel.lockFree && !thisCpuAnnouncing s.kernel cpu then
      some (s, [.read cpu (sysClockTickGet cfg s.kernel cpu s.sysClockElapsed)])
    else none

def clocked [DecidableEq τ] (B : Backend τ) (cfg : Config) :
    System (Clocked B.queue) (ClockAction τ) (ClockEvent τ) :=
  ⟨⟨Kernel.boot B.queue, 0, 0⟩, clockStep B cfg⟩

def ClockEvent.kernel? : ClockEvent τ → Option (Event τ)
  | .kernel e => some e
  | .read .. => none

def ClockEvent.value? : ClockEvent τ → Option ℕ
  | .kernel _ => none
  | .read _ value => some value

def kernelEvents (es : List (ClockEvent τ)) : List (Event τ) := es.filterMap ClockEvent.kernel?

def readsOf (es : List (ClockEvent τ)) : List ℕ := es.filterMap ClockEvent.value?

/-- Kernel steps meet `ok`; the clock is read in states that meet `readable`, with less
than `2 ^ 32` ticks outstanding. -/
def Clocked.within (ok : Kernel Q → Action τ → Prop) (readable : Kernel Q → Prop)
    (s : Clocked Q) : ClockAction τ → Prop
  | .kernel a => ok s.kernel a
  | .pass _ => True
  | .tickGet _ => readable s.kernel ∧ s.sysClockElapsed + s.kernel.announceRemaining < 2 ^ 32

instance Clocked.decidableWithin (ok : Kernel Q → Action τ → Prop) (readable : Kernel Q → Prop)
    [∀ k a, Decidable (ok k a)] [∀ k, Decidable (readable k)] (s : Clocked Q) (a : ClockAction τ) :
    Decidable (s.within ok readable a) :=
  match a with
  | .kernel a => inferInstanceAs (Decidable (ok s.kernel a))
  | .pass _ => inferInstanceAs (Decidable True)
  | .tickGet _ => inferInstanceAs (Decidable (readable s.kernel ∧ _ < 2 ^ 32))

/-- The identity that `elapsed` relies on. -/
def Clocked.Exact (s : Clocked Q) : Prop :=
  s.kernel.currTick + s.kernel.announceRemaining + s.sysClockElapsed = s.real

theorem Clocked.Exact.tickGet {s : Clocked Q} (h : s.Exact) (hsmp : cfg.smp = true)
    (hcpu : thisCpuAnnouncing s.kernel cpu = false)
    (hlt : s.sysClockElapsed + s.kernel.announceRemaining < 2 ^ 32) :
    sysClockTickGet cfg s.kernel cpu s.sysClockElapsed = s.real := by
  simp only [sysClockTickGet, elapsed, hcpu, hsmp, if_true, Bool.false_eq_true, if_false,
    Nat.mod_eq_of_lt hlt]
  rw [← h]
  omega

variable [DecidableEq τ] {B : Backend τ} {cfg : Config}
  {ok : Kernel B.queue → Action τ → Prop} {readable : Kernel B.queue → Prop}

theorem Clocked.reaches_kernel (h : Reaches (clocked B cfg) (Clocked.within ok readable) es s) :
    Reaches (system B cfg) ok (kernelEvents es) s.kernel ∧
      s.baseline = announcedOf (kernelEvents es) ∧ s.baseline ≤ s.real := by
  refine Run.invariant (I := fun es (s : Clocked B.queue) =>
    Reaches (system B cfg) ok (kernelEvents es) s.kernel ∧
      s.baseline = announcedOf (kernelEvents es) ∧ s.baseline ≤ s.real) ?_ ?_ h
  · exact ⟨.refl, rfl, le_rfl⟩
  rintro es s a s' es' ⟨hr, hb, hle⟩ ha hs
  replace hs : clockStep B cfg s a = some (s', es') := hs
  cases a with
  | kernel a =>
    simp only [clockStep] at hs
    split at hs
    case isFalse => simp at hs
    next hall =>
    obtain ⟨⟨k', es''⟩, hstep, heq⟩ := Option.map_eq_some_iff.1 hs
    obtain ⟨rfl, rfl⟩ := Prod.mk.inj heq
    have hev : kernelEvents (es ++ es''.map .kernel) = kernelEvents es ++ es'' := by
      simp [kernelEvents, Function.comp_def, ClockEvent.kernel?]
    rw [hev, announcedOf_append]
    refine ⟨.snoc hr ha hstep, by rw [hb], ?_⟩
    -- only an announce moves the baseline, and only up to the present
    cases a with
    | announce cpu ticks =>
      obtain ⟨-, -, rfl, -⟩ := step_announce hstep
      have hticks : ticks ≤ s.real - s.baseline := of_decide_eq_true hall
      simp only [announcedOf]
      omega
    | add cpu t ticks sysElapsed =>
      obtain ⟨-, rfl⟩ | ⟨-, -, -, -, -, rfl⟩ := step_add_queue hstep <;> exact hle
    | abort cpu t sysElapsed =>
      obtain ⟨-, ⟨-, rfl, -⟩ | ⟨-, rfl, -⟩⟩ := step_abort_queue hstep <;> exact hle
    | loop =>
      obtain ⟨-, -, rfl⟩ := step_loop hstep
      simp only [Kernel.dispatched]
      split <;> exact hle
    | handlerReturn =>
      obtain ⟨-, -, -, rfl⟩ := step_return hstep
      exact hle
  | pass ticks =>
    cases hs
    rw [append_nil]
    exact ⟨hr, hb, hle.trans (Nat.le_add_right _ _)⟩
  | tickGet cpu =>
    simp only [clockStep] at hs
    split at hs
    case isFalse => simp at hs
    cases hs
    have hev : ∀ v, kernelEvents (es ++ [.read cpu v]) = kernelEvents es := by
      simp [kernelEvents, ClockEvent.kernel?]
    rw [hev]
    exact ⟨hr, hb, hle⟩

theorem Clocked.reads_ordered (hsmp : cfg.smp = true)
    (hex : ∀ es s, Reaches (clocked B cfg) (Clocked.within ok readable) es s →
      s.kernel.lockFree = true → readable s.kernel → s.Exact)
    {es : List (ClockEvent τ)} {s : Clocked B.queue}
    (h : Reaches (clocked B cfg) (Clocked.within ok readable) es s) :
    (readsOf es).Pairwise (· ≤ ·) := by
  suffices hinv : Reaches (clocked B cfg) (Clocked.within ok readable) es s ∧
      (readsOf es).Pairwise (· ≤ ·) ∧ ∀ v ∈ readsOf es, v ≤ s.real from hinv.2.1
  refine Run.invariant (I := fun es s => Reaches (clocked B cfg) (Clocked.within ok readable) es s ∧
    (readsOf es).Pairwise (· ≤ ·) ∧ ∀ v ∈ readsOf es, v ≤ s.real) ⟨.refl, .nil, by simp [readsOf]⟩
    ?_ h
  rintro es s a s' es' ⟨hr, hp, hle⟩ ha hs
  refine ⟨.snoc hr ha hs, ?_⟩
  replace hs : clockStep B cfg s a = some (s', es') := hs
  cases a with
  | kernel a =>
    simp only [clockStep] at hs
    split at hs
    case isFalse => simp at hs
    obtain ⟨⟨k', es''⟩, -, heq⟩ := Option.map_eq_some_iff.1 hs
    obtain ⟨rfl, rfl⟩ := Prod.mk.inj heq
    have hev : readsOf (es ++ es''.map .kernel) = readsOf es := by
      simp [readsOf, ClockEvent.value?]
    rw [hev]
    exact ⟨hp, hle⟩
  | pass ticks =>
    cases hs
    rw [append_nil]
    exact ⟨hp, fun v hv => (hle v hv).trans (Nat.le_add_right _ _)⟩
  | tickGet cpu =>
    simp only [clockStep] at hs
    split at hs
    case isFalse => simp at hs
    next hfree =>
    rw [Bool.and_eq_true, Bool.not_eq_true'] at hfree
    cases hs
    have hread := (hex _ _ hr hfree.1 ha.1).tickGet hsmp hfree.2 ha.2
    have hev : readsOf (es ++ [.read cpu (sysClockTickGet cfg s.kernel cpu s.sysClockElapsed)]) =
        readsOf es ++ [s.real] := by
      rw [hread]
      simp [readsOf, ClockEvent.value?]
    rw [hev]
    refine ⟨pairwise_append.2 ⟨hp, by simp, by simpa using hle⟩, ?_⟩
    simpa [or_imp, forall_and] using hle

/-- In every run within bounds the identity holds in the readable states in which the
lock is free, and no read of the clock goes back. -/
def KeepsTime (B : Backend τ) (cfg : Config) (ok : Kernel B.queue → Action τ → Prop)
    (readable : Kernel B.queue → Prop) : Prop :=
  ∀ es s, Reaches (clocked B cfg) (Clocked.within ok readable) es s →
    (s.kernel.lockFree = true → readable s.kernel → s.Exact) ∧ (readsOf es).Pairwise (· ≤ ·)

theorem Refines.keepsTime {D : DrainOps Q} {adm : ℕ → ℤ → Prop}
    {pick : List (τ × ℤ) → τ × ℤ → Prop} {R : Q.State → ℕ → List (τ × ℤ) → Prop}
    (r : Refines D adm pick R) (hsmp : cfg.smp = true) :
    KeepsTime (genericBackend D) cfg (fun k a => a.meets adm cfg k ∧ a.foldFits k)
      (fun _ => True) := by
  have hex : ∀ es s, Reaches (clocked (genericBackend D) cfg)
      (Clocked.within (fun k a => a.meets adm cfg k ∧ a.foldFits k) fun _ => True) es s →
      s.kernel.lockFree = true → True → s.Exact := by
    intro es s h
    obtain ⟨hk, hb, hle⟩ := Clocked.reaches_kernel h
    have htotal := (r.reaches_accounts hk).2.total
    simp only [Clocked.Exact, Clocked.sysClockElapsed]
    omega
  exact fun es s h => ⟨hex es s h, Clocked.reads_ordered hsmp hex h⟩

namespace Wheel

/-- The ticks that `curr_tick` is ahead of `announce_remaining`. -/
def owed : Phase → ℕ
  | .idle | .top => 0
  | .drain n | .handler n => n

structure Owes (es : List (Event τ)) (k : Kernel (queue τ)) : Prop where
  total : k.currTick + k.announceRemaining = announcedOf es + owed k.phase
  owed_le : owed k.phase ≤ k.announceRemaining
  owed_pos : busy k.phase = 1 → 0 < owed k.phase
  settled : k.phase = .idle → k.announceRemaining = 0

variable {k k' : Kernel (queue τ)} {a : Action τ} {es es' : List (Event τ)}

theorem Owes.of_sameClock (h : Owes es k) (hc : SameClock k k') (he : announcedOf es' = 0) :
    Owes (es ++ es') k' where
  total := by
    rw [hc.currTick, hc.announceRemaining, hc.phase, announcedOf_append, he]
    exact h.total
  owed_le := by rw [hc.announceRemaining, hc.phase]; exact h.owed_le
  owed_pos := by rw [hc.phase]; exact h.owed_pos
  settled := by rw [hc.announceRemaining, hc.phase]; exact h.settled

theorem Owes.loop (cfg : Config) (hs : Sound k) (h : Owes es k) (hl : k.lockFree = false) :
    Owes (es ++ (zTimeoutQAnnounce cfg k).dispatched) (zTimeoutQAnnounce cfg k) := by
  have htotal := h.total
  have hle := h.owed_le
  have hrem := hs.remaining
  suffices hnew : Owes es (zTimeoutQAnnounce cfg k) from
    hnew.of_sameClock ⟨rfl, rfl, rfl, rfl⟩ (by unfold Kernel.dispatched; split <;> rfl)
  obtain ⟨n, hp, hn, q, phase, rem, hq, -, hcase, heq⟩ | ⟨hp, h0, heq⟩ | ⟨n, t, hp, -, heq⟩ |
    ⟨n, hp, -, heq⟩ := announce_cases cfg hs hl
  · have hpos := (hq.ticks_le hs.wf.soonIndex).1
    simp only [hp, owed] at htotal
    rw [heq]
    rcases hcase with ⟨rfl, rfl, rfl⟩ | ⟨rfl, rfl⟩
    · exact ⟨by simp only [owed]; omega, Nat.zero_le _, by simp [busy], by simp⟩
    · exact ⟨by simp only [owed]; omega, hn, fun _ => hpos, by simp⟩
  · obtain ⟨-, hc⟩ := announceEnd_clock cfg k
    simp only [hp] at htotal
    rw [heq]
    exact ⟨by rw [hc.currTick, hc.announceRemaining, hc.phase]; exact htotal,
      by rw [hc.phase]; exact Nat.zero_le _, by rw [hc.phase]; simp [busy],
      fun _ => by rw [hc.announceRemaining]; exact h0⟩
  · simp only [hp] at htotal hle
    have hpos := h.owed_pos (by rw [hp]; rfl)
    rw [hp] at hpos
    rw [heq]
    exact ⟨htotal, hle, fun _ => hpos, by simp⟩
  simp only [hp, owed] at htotal hle
  -- the ticks are accounted for only after the slot is drained
  have hsub : (uint32 (k.announceRemaining - n) : ℤ) = k.announceRemaining - n := uint32_eq
  rw [heq]
  exact ⟨by simp only [owed]; omega, Nat.zero_le _, by simp [busy], by simp⟩

theorem Owes.step (hs : Sound k) (h : Owes es k) (ha : a.foldFits k)
    (hstep : Timeout.step (backend τ) cfg k a = some (k', es')) : Owes (es ++ es') k' := by
  cases a with
  | add cpu t ticks sysElapsed =>
    obtain ⟨rfl, rfl⟩ | ⟨-, -, -, -, hc, rfl⟩ := step_add_queue hstep
    · simpa using h
    · exact h.of_sameClock hc rfl
  | abort cpu t sysElapsed =>
    obtain ⟨hc, ⟨-, rfl, -⟩ | ⟨-, rfl, -⟩⟩ := step_abort_queue hstep <;>
      exact h.of_sameClock hc rfl
  | announce cpu ticks =>
    have htotal := h.total
    have hle := h.owed_le
    obtain ⟨-, -, rfl, ⟨-, hsome, rfl⟩ | ⟨hnone, rfl⟩⟩ := step_announce hstep
    · have hlt := ha hsome
      refine ⟨?_, ?_, h.owed_pos, fun hp => ?_⟩
      · simp only [announcedOf_append, announcedOf]
        omega
      · simp only [Nat.mod_eq_of_lt hlt]
        omega
      · rw [hs.cpu.1 hp] at hsome
        simp at hsome
    · have hidle := hs.cpu.2 hnone
      have hzero := h.settled hidle
      rw [hidle] at htotal
      simp only [owed] at htotal
      refine ⟨?_, Nat.zero_le _, by simp [busy], by simp⟩
      simp only [announcedOf_append, announcedOf, owed]
      omega
  | loop =>
    obtain ⟨hl, rfl, rfl⟩ := step_loop hstep
    exact h.loop cfg hs hl
  | handlerReturn =>
    obtain ⟨n, hp, rfl, rfl⟩ := step_return hstep
    have htotal := h.total
    have hle := h.owed_le
    have hpos := h.owed_pos (by rw [hp]; rfl)
    simp only [hp] at htotal hle hpos
    rw [append_nil]
    exact ⟨htotal, hle, fun _ => hpos, by simp⟩

theorem reaches_owes (h : Reaches (system (backend τ) cfg) (fun k a => a.foldFits k) es k) :
    Owes es k := by
  refine (Run.invariant (I := fun es k => Sound k ∧ Owes es k) ⟨sound_boot, ?_⟩
    (fun _ _ _ _ _ hi ha hs => ⟨hi.1.step hs, hi.2.step hi.1 ha hs⟩) h).2
  exact ⟨rfl, le_rfl, by simp [Kernel.boot, busy], fun _ => rfl⟩

theorem exact_iff_idle {readable : Kernel (queue τ) → Prop} {es : List (ClockEvent τ)}
    {s : Clocked (queue τ)}
    (h : Reaches (clocked (backend τ) cfg) (Clocked.within (fun k a => a.foldFits k) readable) es s)
    (hl : s.kernel.lockFree = true) : s.Exact ↔ s.kernel.phase = .idle := by
  obtain ⟨hk, hb, hle⟩ := Clocked.reaches_kernel h
  have how := reaches_owes hk
  have htotal := how.total
  simp only [Clocked.Exact, Clocked.sysClockElapsed]
  cases hp : s.kernel.phase with
  | idle =>
    simp only [hp, owed] at htotal
    refine iff_of_true ?_ rfl
    omega
  | handler n =>
    have hpos := how.owed_pos (by rw [hp]; rfl)
    exact iff_of_false (by omega) nofun
  | top => simp [Kernel.lockFree, hp] at hl
  | drain n => simp [Kernel.lockFree, hp] at hl

theorem keepsTime (hsmp : cfg.smp = true) :
    KeepsTime (backend τ) cfg (fun k a => a.foldFits k) (fun k => k.phase = .idle) := by
  have hex : ∀ es s, Reaches (clocked (backend τ) cfg)
      (Clocked.within (fun k a => a.foldFits k) fun k => k.phase = .idle) es s →
      s.kernel.lockFree = true → s.kernel.phase = .idle → s.Exact :=
    fun es s h hl => (exact_iff_idle h hl).2
  exact fun es s h => ⟨hex es s h, Clocked.reads_ordered hsmp hex h⟩

end Wheel

/-- With the generic loop the identity holds whenever the lock is free, and reads never go back.
With the wheel's own loop it holds exactly outside its handlers, and reads never go back if none
is made there. -/
theorem tick_get_follows_real (W : Bucket.Window) (L : SkipList.Levels) (capacity : ℕ)
    (hsmp : cfg.smp = true) :
    KeepsTime (DeltaList.backend τ) cfg
      (fun k a => a.meets (fun _ _ => True) cfg k ∧ a.foldFits k) (fun _ => True) ∧
    KeepsTime (Bucket.backend W τ) cfg
      (fun k a => a.meets (fun c d => (c : ℤ) + d < 2 ^ 64) cfg k ∧ a.foldFits k) (fun _ => True) ∧
    KeepsTime (SkipList.backend L τ) cfg
      (fun k a => a.meets (fun c d => (c : ℤ) + d ≤ int64Max) cfg k ∧ a.foldFits k)
      (fun _ => True) ∧
    KeepsTime (MinHeap.backend capacity τ) cfg
      (fun k a => a.meets (fun c d => (c : ℤ) + d ≤ int64Max) cfg k ∧ a.foldFits k)
      (fun _ => True) ∧
    (∀ es s, Reaches (clocked (Wheel.backend τ) cfg)
        (Clocked.within (fun k a => a.foldFits k) fun _ => True) es s →
      s.kernel.lockFree = true → (s.Exact ↔ s.kernel.phase = .idle)) ∧
    KeepsTime (Wheel.backend τ) cfg (fun k a => a.foldFits k) (fun k => k.phase = .idle) :=
  ⟨DeltaList.refines.keepsTime hsmp, Bucket.refines.keepsTime hsmp, SkipList.refines.keepsTime hsmp,
    MinHeap.refines.keepsTime hsmp, fun _ _ => Wheel.exact_iff_idle, Wheel.keepsTime hsmp⟩

theorem tick_get_follows_real_idle : ∃ es s,
    Reaches (clocked (Wheel.backend ℕ) ⟨true, false⟩)
      (Clocked.within (fun k a => a.foldFits k) fun k => k.phase = .idle) es s ∧
    readsOf es = [5, 6] ∧ (readsOf es).Pairwise (· ≤ ·) := by
  exact Reaches.of_exec_and
    [.kernel (.add 0 0 1 0), .pass 5, .tickGet 1, .kernel (.announce 0 5), .kernel .loop,
      .kernel .loop, .kernel .handlerReturn, .kernel .loop, .kernel .loop, .kernel .loop, .pass 1,
      .tickGet 1]
    (by decide +kernel) fun es s hrun =>
      ((tick_get_follows_real Bucket.window8 SkipList.levels4 128 rfl).2.2.2.2.2 es s hrun).2

/-- Read while a handler of the wheel runs, and once more when the announce is over, the
clock goes back from 7 to the 5 ticks that have passed. -/
theorem wheel_tick_get_goes_back : ∃ es s,
    Reaches (clocked (Wheel.backend ℕ) ⟨true, false⟩) (fun _ _ => True) es s ∧
    s.real = 5 ∧ es = [.kernel (.added 0 2), .kernel (.announced 5), .kernel (.fired 0 2),
      .read 1 7, .read 1 5] := by
  exact Reaches.of_exec _ _
    [.kernel (.add 0 0 1 0), .pass 5, .kernel (.announce 0 5), .kernel .loop, .kernel .loop,
      .tickGet 1, .kernel .handlerReturn, .kernel .loop, .kernel .loop, .kernel .loop, .tickGet 1] _
    (by decide +kernel)

end ZephyrRtos.Timeout
