import ZephyrRtos.Mutex.Inheritance
import ZephyrRtos.Mutex.OwnershipRuns

namespace ZephyrRtos.Mutex

open Lib Sched

variable {μ τ : Type} {cfg : Config} {s s' : State μ τ} {t u : τ} {m : μ} {exact : Prop}
  {prio : τ → ℤ}

namespace State

def inheritable (cfg : Config) (s : State μ τ) (t : τ) : Set ℤ :=
  insert (s.origPrio t) {p | ∃ m w, s.owner m = some t ∧ w ∈ s.sched.waitq m ∧
    p = getNewPrioWithCeiling cfg (s.sched.prio w)}

/-- Each thread has the best of the priorities it inherits from, and its initial one if it owns
no mutex. -/
def PrioExact (cfg : Config) (prio : τ → ℤ) (s : State μ τ) : Prop :=
  ∀ t, ((∃ m, s.owner m = some t) → IsLeast (s.inheritable cfg t) (s.sched.prio t)) ∧
    ((∀ m, s.owner m ≠ some t) → s.sched.prio t = prio t)

/-- No thread has a lower priority than that. -/
def PrioCovers (cfg : Config) (prio : τ → ℤ) (s : State μ τ) : Prop :=
  ∀ t, ((∃ m, s.owner m = some t) → s.sched.prio t ∈ lowerBounds (s.inheritable cfg t)) ∧
    ((∀ m, s.owner m ≠ some t) → s.sched.prio t ≤ prio t)

variable [DecidableEq μ] [DecidableEq τ]

/-- A step to a state in which the walk reaches the end of every chain. -/
def StaysShort (cfg : Config) (exact : Prop) (s : State μ τ) (a : Action μ τ) : Prop :=
  Calm exact a ∧ ∀ s' es, s.step cfg a = some (s', es) → s'.ChainsEnd

theorem Inherits.init : Inherits cfg exact prio (State.init prio : State μ τ) where
  orig := by simp [State.init]
  base x := le_rfl
  waiter := by simp [State.init]
  attained x _ _ := .inl rfl
  place := by simp [State.init]
  quiet := by simp [State.init]

theorem inherits_of_reaches
    (h : Reaches (mutexes cfg prio) (fun s a => s.CountFits a ∧ s.StaysShort cfg exact a) es s) :
    s.Inv ∧ Inherits cfg exact prio s := by
  refine Run.invariant (I := fun _ s => s.Inv ∧ Inherits cfg exact prio s) ⟨.init prio, .init⟩ ?_ h
  rintro - s a s' es' ⟨hinv, h⟩ ⟨hcount, hcalm, hchain⟩ hstep
  have hmove := move_of_step hstep
  exact ⟨hinv.move hcount hmove, h.move hinv hcalm hcount (hchain s' es' hstep) hmove⟩

theorem Inherits.covers (h : Inherits cfg exact prio s) (hinv : s.Inv) (hfree : s.mutexLock = none) :
    (∀ t m, m ∈ s.heldMutexes t ↔ s.owner m = some t) ∧
    ∀ t, ((∃ m, s.owner m = some t) → s.sched.prio t ∈ lowerBounds (s.inheritable cfg t)) ∧
      ((∀ m, s.owner m ≠ some t) → s.sched.prio t = prio t) := by
  have hp := plain_of_free hfree
  have hheld : ∀ t m, m ∈ s.heldMutexes t ↔ s.owner m = some t := fun t m => by
    simp [hinv.held, Inv.not_releasing hfree]
  refine ⟨hheld, fun t => ⟨?_, fun hnone => ?_⟩⟩
  · rintro ⟨m, hm⟩ - (rfl | ⟨m', w, hm', hw, rfl⟩)
    · rw [h.orig t (List.ne_nil_of_mem ((hheld t m).2 hm))]
      exact h.base t
    · exact h.le_waiter hp ((hheld t m').2 hm')
        ((blockedOn_free hfree).2 ((hinv.sched.mem_iff w m').1 hw))
  · refine h.base_of_nil hp (List.eq_nil_iff_forall_not_mem.2 fun m hm => ?_)
    exact hnone m ((hheld t m).1 hm)

end State

open State

theorem mutex_priority_inheritance [DecidableEq μ] [DecidableEq τ] (cfg : Config) (prio : τ → ℤ) :
    (∀ es (s : State μ τ), Reaches (mutexes cfg prio)
      (fun s a => s.CountFits a ∧ s.StaysShort cfg True a) es s → s.mutexLock = none →
      s.PrioExact cfg prio) ∧
    ∀ es (s : State μ τ), Reaches (mutexes cfg prio)
      (fun s a => s.CountFits a ∧ s.StaysShort cfg False a) es s → s.mutexLock = none →
      s.PrioCovers cfg prio := by
  refine ⟨fun es s hr hfree => ?_, fun es s hr hfree => ?_⟩
  · obtain ⟨hinv, h⟩ := inherits_of_reaches hr
    obtain ⟨hheld, hcov⟩ := h.covers hinv hfree
    refine fun t => ⟨fun hown => ⟨?_, (hcov t).1 hown⟩, (hcov t).2⟩
    have hp := plain_of_free hfree
    have hatt := h.attained t (.inl trivial) fun m => hp.not_scan
    rw [hp.target] at hatt
    obtain heq | ⟨m, w, hm, hw, heq⟩ := hatt
    · obtain ⟨m, hm⟩ := hown
      rw [← h.orig t (List.ne_nil_of_mem ((hheld t m).2 hm))] at heq
      exact .inl heq
    · refine .inr ⟨m, w, (hheld t m).1 hm, ?_, heq⟩
      exact (hinv.sched.mem_iff w m).2 ((blockedOn_free hfree).1 hw)
  · obtain ⟨hinv, h⟩ := inherits_of_reaches hr
    obtain ⟨-, hcov⟩ := h.covers hinv hfree
    exact fun t => ⟨(hcov t).1, fun hnone => ((hcov t).2 hnone).le⟩

section Sample

instance [DecidableEq μ] [DecidableEq τ] : Decidable (s.BlockedOn t m) :=
  decidable_of_iff (s.sched.pendedOn t = some m ∨
      (s.mutexLock.bind fun h => if h.1 = t then h.2.blocksOn else none) = some m) <| by
    rw [BlockedOn]
    refine or_congr_right ?_
    simp only [Option.bind_eq_some_iff, Option.ite_none_right_eq_some, Prod.exists]
    constructor
    · rintro ⟨u, place, hl, rfl, hb⟩
      exact ⟨place, hl, hb⟩
    · rintro ⟨place, hl, hb⟩
      exact ⟨t, place, hl, rfl, hb⟩

/-- No owner waits. -/
def Flat (s : State μ τ) : Prop :=
  ∀ t m u m', s.BlockedOn t m → s.owner m = some u → ¬s.BlockedOn u m'

theorem Flat.chainsEnd (h : Flat s) : s.ChainsEnd := by
  intro n t u hn
  cases hn with
  | refl => exact Nat.zero_le _
  | head hab hn =>
    obtain ⟨m, hm, ho⟩ := hab
    cases hn with
    | refl => decide
    | head hbc _ =>
      obtain ⟨m', hm', -⟩ := hbc
      exact absurd hm' (h _ m _ m' hm ho)

theorem flat_of_idle (hfree : s.mutexLock = none) (hp : ∀ u, s.sched.pendedOn u = none) : Flat s :=
  fun t m u m' ht => by simp [blockedOn_free hfree, hp] at ht

variable [DecidableEq μ] [DecidableEq τ]

def FlatStep (cfg : Config) (s : State μ τ) (a : Action μ τ) : Prop :=
  Calm True a ∧ ∀ r ∈ s.step cfg a, Flat r.1

theorem flatStep_relock (hpc : s.pc t = .outside) (hfree : s.mutexLock = none)
    (ho : s.owner m = some t) (hp : ∀ u, s.sched.pendedOn u = none) :
    FlatStep cfg s (.lock t m w) := by
  refine ⟨trivial, fun r hr => ?_⟩
  have hr' : r = (s.take t m, [.acquired t m, .returned t 0]) := by
    simpa [State.step, State.lock, hpc, hfree, ho, eq_comm] using hr
  rw [hr', State.take]
  split <;> exact flat_of_idle hfree hp

theorem FlatStep.staysShort (h : FlatStep cfg s a) : s.StaysShort cfg True a :=
  ⟨h.1, fun _ _ hs => (h.2 _ hs).chainsEnd⟩

instance : ∀ a : Action μ τ, Decidable (Calm True a)
  | .timeout _ => inferInstanceAs (Decidable (¬True))
  | .lock .. | .unlock .. | .advance _ | .expire _ => inferInstanceAs (Decidable True)

instance [Fintype μ] [Fintype τ] : Decidable (Flat s) :=
  inferInstanceAs (Decidable (∀ t m u m', s.BlockedOn t m → s.owner m = some u → ¬s.BlockedOn u m'))

instance [Fintype μ] [Fintype τ] (a : Action μ τ) : Decidable (FlatStep cfg s a) :=
  inferInstanceAs (Decidable (Calm True a ∧ ∀ r ∈ s.step cfg a, Flat r.1))

end Sample

theorem mutex_priority_inheritance_ceiling : ∃ es s,
    Reaches (mutexes ⟨-1, true⟩ fun t : Fin 3 => -(t : ℤ))
      (fun s a => s.CountFits a ∧ s.StaysShort ⟨-1, true⟩ True a) es s ∧
    s.mutexLock = none ∧ s.owner 0 = some 0 ∧ s.sched.waitq 0 = [2] ∧ s.sched.prio 0 = -1 ∧
    PrioExact ⟨-1, true⟩ (fun t : Fin 3 => -(t : ℤ)) (s : State (Fin 1) (Fin 3)) := by
  obtain ⟨es, s, hrun, hfree, ho, hq, hp⟩ := Reaches.of_exec
    (mutexes ⟨-1, true⟩ fun t : Fin 3 => -(t : ℤ))
    (fun s a => s.CountFits a ∧ FlatStep ⟨-1, true⟩ s a)
    [.lock 0 0 .forever, .lock 2 0 .ticks, .advance 2, .advance 2, .advance 2, .advance 2]
    (fun _ s => s.mutexLock = none ∧ s.owner (0 : Fin 1) = some 0 ∧ s.sched.waitq 0 = [2] ∧
      s.sched.prio 0 = -1) (by decide +kernel)
  have hrun' := hrun.mono fun s a h => And.imp_right FlatStep.staysShort h
  exact ⟨es, s, hrun', hfree, ho, hq, hp, (mutex_priority_inheritance _ _).1 es s hrun' hfree⟩

def fourPrios : Fin 4 → ℤ
  | 0 => 10
  | 1 => 10
  | 2 => 5
  | 3 => 3

/-- Threads 0 and 1 both hold mutex 0 after 2^32 locks: at the end thread 0 owns no mutex but has
the priority 5 and not its own. -/
theorem mutex_wrap_inherits : ∃ es s, Reaches (mutexes ⟨-128, true⟩ fourPrios)
      (fun s a => s.StaysShort ⟨-128, true⟩ True a) es s ∧ s.mutexLock = none ∧
    (∀ m : Fin 2, s.owner m ≠ some 0) ∧ s.sched.prio 0 = 5 ∧
    ¬s.PrioExact ⟨-128, true⟩ fourPrios := by
  have ho : ((State.init fourPrios).take (0 : Fin 4) (0 : Fin 2)).owner 0 = some 0 := rfl
  obtain ⟨es, hwrap⟩ := run_relock ⟨-128, true⟩ fourPrios (FlatStep ⟨-128, true⟩) rfl rfl ho
    (fun c => flatStep_relock rfl rfl rfl fun _ => rfl) rfl (2 ^ 32 - 1) (by omega)
  obtain ⟨es', s, hrun, hend⟩ := Run.of_exec_map (mutexes ⟨-128, true⟩ fourPrios)
    (FlatStep ⟨-128, true⟩) ((State.init fourPrios).take (0 : Fin 4) (0 : Fin 2) |> fun s =>
      { s with lockCount := Function.update s.lockCount 0 0 })
    [.lock 1 0 .forever, .lock 2 0 .forever, .advance 2, .advance 2, .advance 2, .advance 2,
      .lock 0 1 .forever, .lock 3 1 .forever, .advance 3, .advance 3, .advance 3, .advance 3,
      .unlock 0 1, .advance 0, .advance 0, .advance 0, .advance 0, .advance 0]
    (fun s _ => (s.mutexLock.isNone, s.owner 0, s.owner 1, s.sched.prio 0))
    (b := (true, some 1, some 3, 5)) (by decide +kernel)
  simp only [Prod.mk.injEq, Option.isNone_iff_eq_none] at hend
  obtain ⟨hfree, ho₀, ho₁, hp⟩ := hend
  have hnone : ∀ m : Fin 2, s.owner m ≠ some 0 := by
    intro m
    obtain rfl | rfl : m = 0 ∨ m = 1 := by omega
    · simp [ho₀]
    · simp [ho₁]
  have hfirst : FlatStep ⟨-128, true⟩ (.init fourPrios : State (Fin 2) (Fin 4))
      (.lock 0 0 .forever) := by decide +kernel
  refine ⟨_, s, (Run.head hfirst rfl (hwrap.trans hrun)).mono fun s a => FlatStep.staysShort, hfree,
    hnone, hp, fun h => ?_⟩
  have := (h 0).2 hnone
  rw [hp] at this
  exact absurd this (by decide)

end ZephyrRtos.Mutex
