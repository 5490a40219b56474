import ZephyrRtos.Mutex.Ownership

/-! Priority inheritance: what a thread that holds mutexes inherits from those it blocks, at every
point of the chain walk, the unlock and the recalculation after a timeout. -/

namespace ZephyrRtos.Mutex

open List Function Lib Sched

section Hops

variable {α : Type} {r r' : α → α → Prop} {a b c : α} {n k : ℕ}

inductive Hops (r : α → α → Prop) : ℕ → α → α → Prop
  | refl {a : α} : Hops r 0 a a
  | head {a b c : α} {n : ℕ} : r a b → Hops r n b c → Hops r (n + 1) a c

theorem Hops.trans (h : Hops r n a b) (h' : Hops r k b c) : Hops r (n + k) a c := by
  induction h with
  | refl => rwa [zero_add]
  | head hr _ ih => rw [add_right_comm]; exact .head hr (ih h')

theorem Hops.mono (hr : ∀ a b, r' a b → r a b) (h : Hops r' n a b) : Hops r n a b := by
  induction h with
  | refl => exact .refl
  | head hab _ ih => exact .head (hr _ _ hab) ih

theorem Hops.cycle (h : Hops r n a a) (k : ℕ) : Hops r (k * n) a a := by
  induction k with
  | zero => rw [zero_mul]; exact .refl
  | succ k ih => rw [Nat.succ_mul]; exact ih.trans h

end Hops

variable {μ τ : Type} {cfg : Config} {s s' : State μ τ} {t u w x : τ} {m : μ} {place : Section μ τ}
  {p q : ℤ}

theorem withCeiling_eq : getNewPrioWithCeiling cfg p = max p cfg.priorityCeiling := by
  rw [getNewPrioWithCeiling]
  split <;> omega

theorem newPrio_eq : newPrioForInheritance cfg p q = max (min p q) cfg.priorityCeiling := by
  rw [newPrioForInheritance, withCeiling_eq]
  split <;> omega

def Section.blocksOn : Section μ τ → Option μ
  | .detect k | .boost k | .follow k => some k.mutex
  | .pend m _ => some m
  | _ => none

/-- The sections in which no priority has to change, or not for a waiter's sake. -/
def Section.plain : Section μ τ → Prop
  | .pend _ _ | .recalcScan _ | .recalcAdjust _ _ | .handOff _ => True
  | _ => False

namespace State

variable (s) in
/-- A thread blocks on a mutex from its walk of the chain until it is woken. -/
def BlockedOn (t : τ) (m : μ) : Prop :=
  s.sched.pendedOn t = some m ∨ ∃ place, s.mutexLock = some (t, place) ∧ place.blocksOn = some m

variable (s) in
def WaitsFor (t u : τ) : Prop := ∃ m, s.BlockedOn t m ∧ s.owner m = some u

variable (s) in
/-- No ownership chain is longer than the walk goes, nor cyclic: a cycle has chains of every
length. -/
def ChainsEnd : Prop := ∀ n t u, Hops s.WaitsFor n t u → n ≤ maxHops

theorem blockedOn_free (hfree : s.mutexLock = none) :
    s.BlockedOn t m ↔ s.sched.pendedOn t = some m := by
  simp [BlockedOn, hfree]

theorem blockedOn_locked (hl : s.mutexLock = some (t, place)) :
    s.BlockedOn w m ↔ s.sched.pendedOn w = some m ∨ w = t ∧ place.blocksOn = some m := by
  simp only [BlockedOn, hl, Option.some.injEq, Prod.mk.injEq]
  refine or_congr_right ⟨?_, ?_⟩
  · rintro ⟨_, ⟨rfl, rfl⟩, h⟩
    exact ⟨rfl, h⟩
  · rintro ⟨rfl, h⟩
    exact ⟨place, ⟨rfl, rfl⟩, h⟩

theorem blockedOn_idle (hl : s.mutexLock = some (t, place)) (hb : place.blocksOn = none) :
    s.BlockedOn w m ↔ s.sched.pendedOn w = some m := by
  simp [blockedOn_locked hl, hb]

theorem blockedOn_stay (hl : s.mutexLock = some (t, place)) (hb : place'.blocksOn = place.blocksOn) :
    (s.stay t place').BlockedOn w m ↔ s.BlockedOn w m := by
  rw [blockedOn_locked rfl, blockedOn_locked hl, hb]
  rfl

theorem ChainsEnd.not_cycle (h : s.ChainsEnd) : ¬Hops s.WaitsFor (n + 1) t t := fun hc => by
  have := h _ _ _ (hc.cycle (maxHops + 1))
  have hlt : maxHops < (maxHops + 1) * (n + 1) :=
    (Nat.lt_succ_self _).trans_le (Nat.le_mul_of_pos_right _ (Nat.succ_pos n))
  omega

/-- The walk is at an owner from which few hops are left, none of them back to its start. -/
structure WalkOk (cfg : Config) (s : State μ τ) (t : τ) (k : Walk μ τ) : Prop where
  ceiling : cfg.priorityCeiling ≤ k.boostPrio
  bound : ∀ n u, Hops s.WaitsFor n k.chainOwner u → n + k.hops + 1 ≤ maxHops
  ne : k.chainOwner ≠ t
  away : ∀ n u, Hops s.WaitsFor (n + 1) k.chainOwner u → u ≠ t ∧ s.owner k.mutex ≠ some u

structure Covers (cfg : Config) (prio : τ → ℤ) (s : State μ τ) (x : τ) (p : ℤ) : Prop where
  base : p ≤ prio x
  waiter : ∀ m w, m ∈ s.heldMutexes x → s.BlockedOn w m →
    p ≤ getNewPrioWithCeiling cfg (s.sched.prio w)

variable (s) in
def Attains (cfg : Config) (prio : τ → ℤ) (x : τ) (p : ℤ) : Prop :=
  p = prio x ∨ ∃ m w, m ∈ s.heldMutexes x ∧ s.BlockedOn w m ∧
    p = getNewPrioWithCeiling cfg (s.sched.prio w)

variable [DecidableEq μ] [DecidableEq τ]

variable (s) in
/-- What the priority of `x` has to be set against the waiter `w` of its mutex `m`: the walk has
not yet passed the boost on to the owner it is at. -/
def due (x : τ) (m : μ) (w : τ) : ℤ :=
  match s.mutexLock with
  | some (_, .detect k) | some (_, .boost k) =>
    if m = k.chainMutex then min (s.sched.prio x) k.boostPrio else s.sched.prio x
  | some (_, .follow k) =>
    if w = k.chainOwner then min (s.sched.prio x) k.boostPrio else s.sched.prio x
  | _ => s.sched.prio x

variable (s) in
/-- The priority that `x` has when the section that is in progress is through with it. -/
def target (x : τ) : ℤ :=
  match s.mutexLock with
  | some (_, .detect k) | some (_, .boost k) =>
    if x = k.chainOwner then min (s.sched.prio x) k.boostPrio else s.sched.prio x
  | some (_, .follow k) =>
    if (s.sched.pendedOn k.chainOwner).bind s.owner = some x then
      min (s.sched.prio x) k.boostPrio
    else s.sched.prio x
  | some (t, .unlockAdjust _ p) => if x = t then p else s.sched.prio x
  | _ => s.sched.prio x

/-- What the holder of `mutex_lock` knows about priorities. Without timeouts nothing is ever
recalculated after one. -/
def PrioOk (cfg : Config) (exact : Prop) (prio : τ → ℤ) (s : State μ τ) (t : τ) :
    Section μ τ → Prop
  | .detect k | .boost k | .follow k => WalkOk cfg s t k
  | .recalcScan _ => ¬exact
  | .recalcAdjust m p => ¬exact ∧
    ∀ o, s.owner m = some o → s.sched.prio o ≤ p ∧ Covers cfg prio s o p
  | .unlockScan _ => s.origPrio t = prio t
  | .unlockAdjust _ p => Covers cfg prio s t p
  | _ => True

/-- The priorities of all threads, which start out as `prio`; `exact` if no thread has timed
out. -/
structure Inherits (cfg : Config) (exact : Prop) (prio : τ → ℤ) (s : State μ τ) : Prop where
  orig : ∀ x, s.heldMutexes x ≠ [] → s.origPrio x = prio x
  base : ∀ x, s.sched.prio x ≤ prio x
  waiter : ∀ x m w, m ∈ s.heldMutexes x → s.BlockedOn w m →
    s.due x m w ≤ getNewPrioWithCeiling cfg (s.sched.prio w)
  attained : ∀ x, exact ∨ s.heldMutexes x = [] → (∀ m, s.mutexLock ≠ some (x, .unlockScan m)) →
    s.Attains cfg prio x (s.target x)
  place : ∀ t place, s.mutexLock = some (t, place) → PrioOk cfg exact prio s t place
  quiet : exact → ∀ t m, s.pc t ≠ .timedOut m ∧
    (s.pc t = .waiting m → s.sched.pendedOn t = none → s.sched.swapRetval t = 0)

variable (s) in
def Quiet (exact : Prop) : Prop := exact → ∀ t m, s.pc t ≠ .timedOut m ∧
  (s.pc t = .waiting m → s.sched.pendedOn t = none → s.sched.swapRetval t = 0)

variable (s) in
/-- No boost or recalculation is under way: every thread has the priority it is due. -/
def Plain : Prop := ∀ t place, s.mutexLock = some (t, place) → place.plain

section

omit [DecidableEq μ] [DecidableEq τ]

theorem plain_of_free (h : s.mutexLock = none) : s.Plain := by
  simp [Plain, h]

theorem Plain.not_scan (h : s.Plain) : s.mutexLock ≠ some (x, .unlockScan m) := h _ _

end

theorem Plain.due (h : s.Plain) : s.due x m w = s.sched.prio x := by
  rw [State.due]
  split
  · next hl => exact (h _ _ hl).elim
  · next hl => exact (h _ _ hl).elim
  · next hl => exact (h _ _ hl).elim
  · rfl

theorem Plain.target (h : s.Plain) : s.target x = s.sched.prio x := by
  rw [State.target]
  split
  · next hl => exact (h _ _ hl).elim
  · next hl => exact (h _ _ hl).elim
  · next hl => exact (h _ _ hl).elim
  · next hl => exact (h _ _ hl).elim
  · rfl

section Scan

omit [DecidableEq μ] [DecidableEq τ]

theorem Inv.scanMutex_spec (h : s.Inv) (cfg : Config) : s.scanMutex cfg p m ≤ p ∧
    (∀ w, s.sched.pendedOn w = some m →
      s.scanMutex cfg p m ≤ getNewPrioWithCeiling cfg (s.sched.prio w)) ∧
    (s.scanMutex cfg p m = p ∨ ∃ w, s.sched.pendedOn w = some m ∧
      s.scanMutex cfg p m = getNewPrioWithCeiling cfg (s.sched.prio w)) := by
  rw [scanMutex, zPriqSimpleBest]
  cases hq : s.sched.waitq m with
  | nil =>
    refine ⟨le_rfl, fun w hw => ?_, .inl rfl⟩
    simpa [hq] using (h.sched.mem_iff w m).2 hw
  | cons v l =>
    obtain ⟨hv, hbefore⟩ := h.sched.head hq
    simp only [head?_cons, withCeiling_eq]
    refine ⟨by split <;> omega, fun w hw => ?_, ?_⟩
    · have hle : s.sched.prio v ≤ s.sched.prio w := by
        obtain rfl | hne := eq_or_ne w v
        · exact le_rfl
        · exact (hbefore w hw hne).prio_le
      split <;> omega
    · split
      · exact .inr ⟨v, hv, rfl⟩
      · exact .inl rfl

theorem Inv.scan_spec (h : s.Inv) (cfg : Config) (l : List μ) : l.foldl (s.scanMutex cfg) p ≤ p ∧
    (∀ m ∈ l, ∀ w, s.sched.pendedOn w = some m →
      l.foldl (s.scanMutex cfg) p ≤ getNewPrioWithCeiling cfg (s.sched.prio w)) ∧
    (l.foldl (s.scanMutex cfg) p = p ∨ ∃ m ∈ l, ∃ w, s.sched.pendedOn w = some m ∧
      l.foldl (s.scanMutex cfg) p = getNewPrioWithCeiling cfg (s.sched.prio w)) := by
  induction l generalizing p with
  | nil => simp
  | cons m l ih =>
    obtain ⟨hle, hall, hor⟩ := ih
    obtain ⟨hle₁, hall₁, hor₁⟩ := h.scanMutex_spec cfg
    rw [foldl_cons]
    refine ⟨hle.trans hle₁, fun m' hm' w hw => ?_, ?_⟩
    · obtain rfl | hm' := mem_cons.1 hm'
      · exact hle.trans (hall₁ w hw)
      · exact hall m' hm' w hw
    obtain heq | ⟨m', hm', w, hw, heq⟩ := hor
    · rw [heq]
      obtain heq₁ | ⟨w, hw, heq₁⟩ := hor₁
      · exact .inl heq₁
      · exact .inr ⟨m, .head _, w, hw, heq₁⟩
    · exact .inr ⟨m', .tail _ hm', w, hw, heq⟩

end Scan

section

omit [DecidableEq μ] [DecidableEq τ]

theorem WalkOk.of_subset (h : WalkOk cfg s t k) (ho : s'.owner = s.owner)
    (hb : ∀ w m, s'.BlockedOn w m → s.BlockedOn w m) : WalkOk cfg s' t k := by
  have hw : ∀ a b, s'.WaitsFor a b → s.WaitsFor a b := fun a b ⟨m, hm, hown⟩ =>
    ⟨m, hb a m hm, by rw [← ho]; exact hown⟩
  refine ⟨h.ceiling, fun n u hn => h.bound n u (hn.mono hw), h.ne, fun n u hn => ?_⟩
  rw [ho]
  exact h.away n u (hn.mono hw)

theorem Covers.of_subset (h : Covers cfg prio s x p) (hh : s'.heldMutexes x = s.heldMutexes x)
    (hprio : s'.sched.prio = s.sched.prio) (hb : ∀ w m, s'.BlockedOn w m → s.BlockedOn w m) :
    Covers cfg prio s' x p := by
  refine ⟨h.base, fun m w hm hw => ?_⟩
  rw [hprio]
  exact h.waiter m w (hh ▸ hm) (hb w m hw)

theorem Attains.carry (h : s.Attains cfg prio x p)
    (hb : ∀ m w, m ∈ s.heldMutexes x → s.BlockedOn w m →
      p = getNewPrioWithCeiling cfg (s.sched.prio w) →
      m ∈ s'.heldMutexes x ∧ s'.BlockedOn w m ∧ s'.sched.prio w = s.sched.prio w) :
    s'.Attains cfg prio x p := by
  refine .imp_right ?_ h
  rintro ⟨m, w, hm, hw, hp⟩
  obtain ⟨hm', hw', heq⟩ := hb m w hm hw hp
  exact ⟨m, w, hm', hw', by rw [heq]; exact hp⟩

end

variable {exact : Prop} {prio : τ → ℤ}

theorem PrioOk.of_subset (h : PrioOk cfg exact prio s t place) (ho : s'.owner = s.owner)
    (hh : s'.heldMutexes = s.heldMutexes) (horig : s'.origPrio = s.origPrio)
    (hprio : s'.sched.prio = s.sched.prio) (hb : ∀ w m, s'.BlockedOn w m → s.BlockedOn w m) :
    PrioOk cfg exact prio s' t place := by
  cases place with
  | detect k | boost k | follow k => exact .of_subset h ho hb
  | recalcAdjust m p =>
    refine ⟨h.1, fun o hm => ?_⟩
    rw [ho] at hm
    obtain ⟨hle, hc⟩ := h.2 o hm
    rw [hprio]
    exact ⟨hle, hc.of_subset (congrFun hh o) hprio hb⟩
  | unlockScan m => exact (congrFun horig t).trans h
  | unlockAdjust m p => exact .of_subset h (congrFun hh t) hprio hb
  | pend | recalcScan | handOff => exact h

namespace Inherits

theorem quiet_update {pc : Pc μ} (h : Inherits cfg exact prio s)
    (hpc : ∀ m, pc ≠ .timedOut m ∧ pc ≠ .waiting m) (hex : exact) (u : τ) (m : μ) :
    update s.pc t pc u ≠ .timedOut m ∧ (update s.pc t pc u = .waiting m →
      s.sched.pendedOn u = none → s.sched.swapRetval u = 0) := by
  obtain rfl | hne := eq_or_ne u t
  · rw [update_self]
    exact ⟨(hpc m).1, fun heq => absurd heq (hpc m).2⟩
  · rw [update_of_ne hne]
    exact h.quiet hex u m

section

variable (h : Inherits cfg exact prio s)
include h

theorem quiet_step (ho : s'.owner = s.owner) (hh : s'.heldMutexes = s.heldMutexes)
    (horig : s'.origPrio = s.origPrio) (hprio : s'.sched.prio = s.sched.prio)
    (hpend : s'.sched.pendedOn = s.sched.pendedOn) (hl : s'.mutexLock = s.mutexLock)
    (hq : s'.Quiet exact) :
    Inherits cfg exact prio s' := by
  have hb : ∀ w m, s'.BlockedOn w m ↔ s.BlockedOn w m := by simp [BlockedOn, hpend, hl]
  have htarget : ∀ x, s'.target x = s.target x := fun x => by
    simp only [target, hl, hprio, hpend, ho]
  refine ⟨?_, ?_, fun x m w hm hw => ?_, fun x hx hscan => ?_, fun t place hplace => ?_, hq⟩
  · rw [hh, horig]
    exact h.orig
  · rw [hprio]
    exact h.base
  · have := h.waiter x m w (by rwa [← hh]) ((hb w m).1 hw)
    simpa only [due, hl, hprio] using this
  · rw [htarget]
    refine (h.attained x (by rwa [← hh]) (by rwa [← hl])).carry fun m w hm hw _ => ?_
    exact ⟨by rwa [hh], (hb w m).2 hw, by rw [hprio]⟩
  · exact (h.place t place (by rw [← hl]; exact hplace)).of_subset ho hh horig hprio
      fun w m => (hb w m).1

theorem base_of_nil (hp : s.Plain) (hx : s.heldMutexes x = []) : s.sched.prio x = prio x := by
  obtain heq | ⟨m, -, hm, -⟩ := h.attained x (.inr hx) fun m => hp.not_scan
  · rw [← hp.target, heq]
  · simp [hx] at hm

theorem le_waiter (hp : s.Plain) (hm : m ∈ s.heldMutexes x) (hw : s.BlockedOn w m) :
    s.sched.prio x ≤ getNewPrioWithCeiling cfg (s.sched.prio w) := by
  have := h.waiter x m w hm hw
  rwa [hp.due] at this

theorem plain_step (hp : s.Plain) (hp' : s'.Plain) (hh : s'.heldMutexes = s.heldMutexes)
    (horig : s'.origPrio = s.origPrio) (hprio : s'.sched.prio = s.sched.prio)
    (hb : ∀ w m, s'.BlockedOn w m ↔ s.BlockedOn w m)
    (hplace : ∀ t place, s'.mutexLock = some (t, place) → PrioOk cfg exact prio s' t place)
    (hq : s'.Quiet exact) :
    Inherits cfg exact prio s' := by
  refine ⟨?_, ?_, fun x m w hm hw => ?_, fun x hx _ => ?_, hplace, hq⟩
  · rw [hh, horig]
    exact h.orig
  · rw [hprio]
    exact h.base
  · rw [hp'.due, hprio]
    exact h.le_waiter hp (hh ▸ hm) ((hb w m).1 hw)
  · rw [hp'.target, hprio, ← hp.target]
    refine (h.attained x (by rwa [← hh]) fun m => hp.not_scan).carry fun m w hm hw _ => ?_
    exact ⟨by rwa [hh], (hb w m).2 hw, by rw [hprio]⟩

theorem hold (hp : s.Plain) (hfree : s'.mutexLock = none)
    (hheld : s'.heldMutexes = (s.hold t m).heldMutexes)
    (horig : s'.origPrio = (s.hold t m).origPrio) (hprio : s'.sched.prio = s.sched.prio)
    (hb : ∀ w m', s'.BlockedOn w m' → s.BlockedOn w m')
    (hb' : ∀ x w m', m' ∈ s.heldMutexes x → s.BlockedOn w m' → s'.BlockedOn w m')
    (hnew : ∀ w, s'.BlockedOn w m → s.sched.prio t ≤ s.sched.prio w)
    (hq : s'.Quiet exact) :
    Inherits cfg exact prio s' := by
  have hmem : ∀ {x m'}, m' ∈ s.heldMutexes x → m' ∈ s'.heldMutexes x := fun hm' => by
    rw [hheld, Inv.mem_hold]
    exact .inl hm'
  have hp' := plain_of_free hfree
  refine ⟨fun x hx => ?_, ?_, fun x m' w hm' hw => ?_, fun x hx _ => ?_, by simp [hfree], hq⟩
  · rw [horig]
    simp only [State.hold]
    obtain rfl | hne := eq_or_ne x t
    · split
      · next hnil => rw [update_self, h.base_of_nil hp hnil]
      · next hnil => exact h.orig x hnil
    · have hx' : s.heldMutexes x ≠ [] := by simpa [hheld, State.hold, hne] using hx
      split
      · rw [update_of_ne hne]
        exact h.orig x hx'
      · exact h.orig x hx'
  · rw [hprio]
    exact h.base
  · rw [hp'.due, hprio]
    rw [hheld, Inv.mem_hold] at hm'
    obtain hm' | ⟨rfl, rfl⟩ := hm'
    · exact h.le_waiter hp hm' (hb w m' hw)
    · rw [withCeiling_eq]
      exact (hnew w hw).trans (le_max_left _ _)
  · rw [hp'.target, hprio, ← hp.target]
    refine (h.attained x ?_ fun m => hp.not_scan).carry fun m' w hm' hw _ =>
      ⟨hmem hm', hb' x w m' hm' hw, by rw [hprio]⟩
    refine hx.imp_right fun hnil => eq_nil_iff_forall_not_mem.2 fun m' hm' => ?_
    have := hmem hm'
    simp [hnil] at this

theorem block (hinv : s.Inv) (hfree : s.mutexLock = none) (ho : s.owner m = some o)
    (hne : o ≠ t)
    (hs : s' = (s.setMutexPendedOn t (some m)).enter t (.detect ⟨m, y, newPrioForInheritance cfg (s.sched.prio t) (s.sched.prio o), m, o, 0, b⟩))
    (hchain : s'.ChainsEnd) : Inherits cfg exact prio s' := by
  have hp := plain_of_free hfree
  have hl' : s'.mutexLock = some (t, .detect ⟨m, y,
    newPrioForInheritance cfg (s.sched.prio t) (s.sched.prio o), m, o, 0, b⟩) := by rw [hs]; rfl
  have hb : ∀ w m', s'.BlockedOn w m' ↔ s.BlockedOn w m' ∨ w = t ∧ m' = m := fun w m' => by
    rw [blockedOn_locked hl', blockedOn_free hfree, hs]
    simp [Section.blocksOn, State.enter, State.setMutexPendedOn, eq_comm]
  have hprio : s'.sched.prio = s.sched.prio := by rw [hs]; rfl
  have howner : s'.owner = s.owner := by rw [hs]; rfl
  have hheld : s'.heldMutexes = s.heldMutexes := by rw [hs]; rfl
  have hmo : m ∈ s.heldMutexes o := (hinv.held o m).2 ⟨ho, Inv.not_releasing hfree⟩
  have howns : ∀ {x}, m ∈ s.heldMutexes x → x = o := fun hx => by
    have := ((hinv.held _ m).1 hx).1
    rw [ho] at this
    exact (Option.some.inj this).symm
  have hto : s'.WaitsFor t o := ⟨m, (hb t m).2 (.inr ⟨rfl, rfl⟩), by rw [howner]; exact ho⟩
  refine ⟨by rw [hs]; exact h.orig, by rw [hprio]; exact h.base, fun x m' w hm' hw => ?_,
    fun x hx _ => ?_, ?_, ?_⟩
  · rw [hheld] at hm'
    rw [State.due, hl', hprio]
    simp only [newPrio_eq, withCeiling_eq]
    obtain hw | ⟨rfl, rfl⟩ := (hb w m').1 hw
    · have := h.le_waiter hp hm' hw
      rw [withCeiling_eq] at this
      split <;> omega
    · rw [if_pos rfl]
      omega
  · rw [State.target, hl', hprio]
    simp only [newPrio_eq]
    have hold := h.attained x (by rwa [← hheld]) fun m => hp.not_scan
    rw [hp.target] at hold
    by_cases hxo : x = o ∧ max (min (s.sched.prio t) (s.sched.prio o)) cfg.priorityCeiling <
        s.sched.prio o
    · obtain ⟨rfl, hlt⟩ := hxo
      refine .inr ⟨m, t, by rwa [hheld], (hb t m).2 (.inr ⟨rfl, rfl⟩), ?_⟩
      rw [if_pos rfl, hprio, withCeiling_eq]
      omega
    have heq : (if x = o then min (s.sched.prio x) (max (min (s.sched.prio t) (s.sched.prio o))
        cfg.priorityCeiling) else s.sched.prio x) = s.sched.prio x := by
      split
      · next he =>
        subst he
        simp only [true_and] at hxo
        omega
      · rfl
    rw [heq]
    exact hold.carry fun m' w hm' hw _ => ⟨by rwa [hheld], (hb w m').2 (.inl hw), by rw [hprio]⟩
  · intro u place heq
    rw [hl'] at heq
    cases heq
    refine ⟨?_, fun n u hn => ?_, hne, fun n u hn => ⟨?_, ?_⟩⟩
    · simp only [newPrio_eq]
      exact le_max_right _ _
    · exact hchain _ _ _ (.head hto hn)
    · rintro rfl
      exact hchain.not_cycle (.head hto hn)
    · rw [howner]
      intro hu
      obtain rfl : o = u := Option.some.inj (ho.symm.trans hu)
      exact hchain.not_cycle hn
  · rw [hs]
    exact h.quiet_update (by simp)

theorem base_update (hle : p ≤ prio u) (x : τ) : update s.sched.prio u p x ≤ prio x := by
  obtain rfl | hne := eq_or_ne x u
  · rwa [update_self]
  · rw [update_of_ne hne]
    exact h.base x

theorem stay (hl : s.mutexLock = some (t, place)) (hb : place'.blocksOn = place.blocksOn)
    (hdue : ∀ x m w, m ∈ s.heldMutexes x → s.BlockedOn w m →
      (s.stay t place').due x m w ≤ getNewPrioWithCeiling cfg (s.sched.prio w))
    (htarget : ∀ x, exact ∨ s.heldMutexes x = [] →
      s.Attains cfg prio x ((s.stay t place').target x))
    (hplace : PrioOk cfg exact prio s t place') : Inherits cfg exact prio (s.stay t place') := by
  have hb : ∀ w m, (s.stay t place').BlockedOn w m ↔ s.BlockedOn w m := fun w m =>
    blockedOn_stay hl hb
  refine ⟨h.orig, h.base, fun x m w hm hw => hdue x m w hm ((hb w m).1 hw), fun x hx _ =>
    (htarget x hx).carry fun m w hm hw _ => ⟨hm, (hb w m).2 hw, rfl⟩, ?_, h.quiet⟩
  rintro u _ heq
  cases heq
  exact hplace.of_subset rfl rfl rfl rfl fun w m => (hb w m).1

theorem detect (hl : s.mutexLock = some (t, .detect k)) :
    Inherits cfg exact prio (s.stay t (.boost { k with allForever := b })) := by
  refine h.stay hl rfl (fun x m w hm hw => ?_) (fun x hx => ?_) ?_
  · have := h.waiter x m w hm hw
    rwa [State.due, hl] at this
  · have := h.attained x hx (by simp [hl])
    rwa [State.target, hl] at this
  · obtain ⟨hc, hbound, hne, haway⟩ : WalkOk cfg s t k := h.place t _ hl
    exact ⟨hc, hbound, hne, haway⟩

end

theorem walk_facts (hinv : s.Inv) (hl : s.mutexLock = some (t, place))
    (hrel : place.releases = none) (hok : WalkOk cfg s t k) :
    (∀ x m, m ∈ s.heldMutexes x ↔ s.owner m = some x) ∧
    (∀ m, s.BlockedOn k.chainOwner m ↔ s.sched.pendedOn k.chainOwner = some m) ∧
    (∀ m, m ∈ s.heldMutexes k.chainOwner → ¬s.BlockedOn k.chainOwner m) := by
  have hheld : ∀ x m, m ∈ s.heldMutexes x ↔ s.owner m = some x := fun x m => by
    rw [hinv.held, Inv.releasing_iff hl, hrel]
    simp
  refine ⟨hheld, fun m => ?_, fun m hm hb => ?_⟩
  · rw [blockedOn_locked hl]
    simp [hok.ne]
  · have hself : s.WaitsFor k.chainOwner k.chainOwner := ⟨m, hb, (hheld _ m).1 hm⟩
    have hone : Hops s.WaitsFor 1 k.chainOwner k.chainOwner := .head hself .refl
    have := hok.bound _ _ (hone.cycle maxHops)
    omega

section

variable (h : Inherits cfg exact prio s) (hinv : s.Inv)
include h hinv

theorem boost (hl : s.mutexLock = some (t, .boost k))
    (hlt : k.boostPrio < s.sched.prio k.chainOwner) :
    Inherits cfg exact prio ((s.adjustPrio k.chainOwner k.boostPrio).stay t (.follow k)) := by
  have hok : WalkOk cfg s t k := h.place t _ hl
  obtain ⟨-, -, -, hchain⟩ := hinv.locked t _ hl
  obtain ⟨hheld, hblocked, hself⟩ := walk_facts hinv hl rfl hok
  set s' := (s.adjustPrio k.chainOwner k.boostPrio).stay t (.follow k) with hs
  have hl' : s'.mutexLock = some (t, .follow k) := rfl
  have hprio : s'.sched.prio = update s.sched.prio k.chainOwner k.boostPrio := by
    simp [hs, State.stay]
  have howner : s'.owner = s.owner := by simp [hs, State.stay]
  have hheld' : s'.heldMutexes = s.heldMutexes := by simp [hs, State.stay]
  have hpend : s'.sched.pendedOn = s.sched.pendedOn := by simp [hs, State.stay]
  have hb : ∀ w m, s'.BlockedOn w m ↔ s.BlockedOn w m := fun w m => by
    rw [blockedOn_locked hl', blockedOn_locked hl, hpend]
    rfl
  have hceil := hok.ceiling
  refine ⟨?_, fun x => ?_, fun x m w hm hw => ?_, fun x hx _ => ?_, ?_, ?_⟩
  · simpa [hs, State.stay] using h.orig
  · rw [hprio]
    exact h.base_update (hlt.le.trans (h.base _)) x
  · rw [hheld'] at hm
    rw [hb] at hw
    have hold := h.waiter x m w hm hw
    rw [State.due, hl] at hold
    rw [State.due, hl', hprio]
    simp only [withCeiling_eq] at hold ⊢
    obtain rfl | hwo := eq_or_ne w k.chainOwner
    · rw [if_pos rfl, update_self]
      exact (min_le_right _ _).trans (le_max_left _ _)
    rw [if_neg hwo, update_of_ne hwo]
    obtain rfl | hxo := eq_or_ne x k.chainOwner
    · rw [update_self]
      split at hold <;> omega
    · rw [update_of_ne hxo]
      rwa [if_neg] at hold
      rintro rfl
      rw [hheld, hchain] at hm
      exact hxo (Option.some.inj hm).symm
  · have hold := h.attained x (by rwa [← hheld']) (by simp [hl])
    rw [State.target, hl] at hold
    rw [State.target, hl', hprio, hpend, howner]
    simp only at hold ⊢
    obtain rfl | hxo := eq_or_ne x k.chainOwner
    · -- a thread does not wait for itself
      rw [if_pos rfl, min_eq_right hlt.le] at hold
      rw [if_neg, update_self]
      · refine hold.carry fun m w hm hw _ => ⟨by rwa [hheld'], (hb w m).2 hw, ?_⟩
        rw [hprio, update_of_ne]
        rintro rfl
        exact hself m hm hw
      · intro hbind
        obtain ⟨m, hm, ho⟩ := Option.bind_eq_some_iff.1 hbind
        exact hself m ((hheld _ m).2 ho) ((hblocked m).2 hm)
    · rw [if_neg hxo] at hold
      rw [update_of_ne hxo]
      by_cases hnext : (s.sched.pendedOn k.chainOwner).bind s.owner = some x ∧
          k.boostPrio < s.sched.prio x
      · obtain ⟨hbind, hltx⟩ := hnext
        obtain ⟨m, hm, ho⟩ := Option.bind_eq_some_iff.1 hbind
        refine .inr ⟨m, k.chainOwner, by rw [hheld', hheld, ho], (hb _ m).2 ((hblocked m).2 hm), ?_⟩
        rw [if_pos hbind, hprio, update_self, withCeiling_eq]
        omega
      have heq : (if (s.sched.pendedOn k.chainOwner).bind s.owner = some x then
          min (s.sched.prio x) k.boostPrio else s.sched.prio x) = s.sched.prio x := by
        split
        · next hbind =>
          simp only [hbind, true_and, not_lt] at hnext
          exact min_eq_left hnext
        · rfl
      rw [heq]
      refine hold.carry fun m w hm hw hv => ⟨by rwa [hheld'], (hb w m).2 hw, ?_⟩
      rw [hprio, update_of_ne]
      rintro rfl
      have hbind : (s.sched.pendedOn k.chainOwner).bind s.owner = some x :=
        Option.bind_eq_some_iff.2 ⟨m, (hblocked m).1 hw, (hheld x m).1 hm⟩
      simp only [hbind, true_and, not_lt] at hnext
      rw [withCeiling_eq] at hv
      omega
  · rintro u place heq
    cases heq
    exact hok.of_subset howner fun w m => (hb w m).1
  · simpa [hs, State.stay] using h.quiet

theorem noBoost (hl : s.mutexLock = some (t, .boost k))
    (hle : s.sched.prio k.chainOwner ≤ k.boostPrio) :
    Inherits cfg exact prio (s.stay t (.follow k)) := by
  have hok : WalkOk cfg s t k := h.place t _ hl
  obtain ⟨-, -, -, hchain⟩ := hinv.locked t _ hl
  obtain ⟨hheld, hblocked, -⟩ := walk_facts hinv hl rfl hok
  have hceil := hok.ceiling
  -- apart from the owner the walk is at, nobody falls short
  have hdue : ∀ {x m w}, m ∈ s.heldMutexes x → s.BlockedOn w m →
      s.sched.prio x ≤ max (s.sched.prio w) cfg.priorityCeiling := fun {x m w} hm hw => by
    have := h.waiter x m w hm hw
    rw [State.due, hl, withCeiling_eq] at this
    simp only at this
    split at this
    · next hmc =>
      subst hmc
      rw [hheld, hchain] at hm
      cases hm
      omega
    · exact this
  refine h.stay hl rfl (fun x m w hm hw => ?_) (fun x hx => ?_) hok
  · have := hdue hm hw
    rw [State.due, withCeiling_eq]
    simp only [State.stay]
    split <;> omega
  have hold := h.attained x hx (by simp [hl])
  have heq : (s.stay t (.follow k)).target x = s.sched.prio x := by
    refine ite_eq_right_iff.2 fun hbind => min_eq_left ?_
    obtain ⟨m, hm, ho⟩ := Option.bind_eq_some_iff.1 hbind
    exact (hdue ((hheld x m).2 ho) ((hblocked m).2 hm)).trans (max_le hle hceil)
  have heq' : s.target x = s.sched.prio x := by
    rw [State.target, hl]
    exact ite_eq_right_iff.2 fun hx => min_eq_left (hx ▸ hle)
  rwa [heq, ← heq']

theorem follow (hl : s.mutexLock = some (t, .follow k)) (hk : s.nextWalk k = some k') :
    Inherits cfg exact prio (s.stay t (.detect k')) := by
  have hok : WalkOk cfg s t k := h.place t _ hl
  obtain ⟨-, hblocked, -⟩ := walk_facts hinv hl rfl hok
  obtain ⟨m₂, o₂, hon, hpend, -, -, ho₂, rfl⟩ := nextWalk_eq_some.1 hk
  have hpended : s.sched.pendedOn k.chainOwner = some m₂ := by
    obtain ⟨m, hm⟩ := Option.isSome_iff_exists.1 hpend
    have := (hinv.waited _ m hm).2.2
    rw [hon] at this
    rw [hm, this]
  have hwaits : s.WaitsFor k.chainOwner o₂ := ⟨m₂, (hblocked m₂).2 hpended, ho₂⟩
  refine h.stay hl rfl (fun x m w hm hw => ?_) (fun x hx => ?_)
    ⟨hok.ceiling, fun n u hn => ?_, ?_, fun n u hn => ?_⟩
  · have hold := h.waiter x m w hm hw
    rw [State.due, hl] at hold
    rw [State.due]
    simp only [State.stay] at hold ⊢
    split
    · split at hold
      · exact hold
      · exact (min_le_left _ _).trans hold
    · next hne =>
      rwa [if_neg] at hold
      rintro rfl
      have := (hblocked m).1 hw
      rw [hpended] at this
      exact hne (Option.some.inj this).symm
  · have hold := h.attained x hx (by simp [hl])
    rw [State.target, hl] at hold
    rw [State.target]
    simp only [hpended, Option.bind_some, ho₂, Option.some.injEq] at hold ⊢
    simp only [eq_comm (a := x)]
    exact hold
  · have := hok.bound _ _ (.head hwaits hn)
    simp only
    omega
  · exact (hok.away 0 o₂ (.head hwaits .refl)).1
  · exact hok.away _ _ (.head hwaits hn)

theorem stop (hl : s.mutexLock = some (t, .follow k)) (hk : s.nextWalk k = none) :
    Inherits cfg exact prio (s.stay t (.pend k.mutex k.timeout)) := by
  have hok : WalkOk cfg s t k := h.place t _ hl
  obtain ⟨-, hblocked, -⟩ := walk_facts hinv hl rfl hok
  -- the walk does not end at an owner that waits itself
  have hnone : s.sched.pendedOn k.chainOwner = none := by
    cases hp : s.sched.pendedOn k.chainOwner with
    | none => rfl
    | some m =>
      obtain ⟨ho, -, hon⟩ := hinv.waited _ m hp
      obtain ⟨o, ho⟩ := Option.ne_none_iff_exists'.1 ho
      have hone : Hops s.WaitsFor 1 k.chainOwner o := .head ⟨m, (hblocked m).2 hp, ho⟩ .refl
      have hfar := hok.bound _ _ hone
      have hm : m ≠ k.mutex := by
        rintro rfl
        exact (hok.away 0 o hone).2 ho
      have := nextWalk_eq_some.2 ⟨m, o, hon, by simp [WaitQs.isThreadPending, hp], hm, by omega, ho, rfl⟩
      simp [hk] at this
  refine h.stay hl rfl (fun x m w hm hw => ?_) (fun x hx => ?_) trivial
  · have hold := h.waiter x m w hm hw
    rw [State.due, hl] at hold
    simp only at hold
    rwa [if_neg] at hold
    rintro rfl
    have := (hblocked m).1 hw
    simp [hnone] at this
  · have hold := h.attained x hx (by simp [hl])
    rw [State.target, hl] at hold
    simp only [hnone] at hold
    exact hold

end

theorem plain_of (hl : s.mutexLock = some (t, place)) (hplace : place.plain) : s.Plain := by
  intro u place' heq
  rw [hl] at heq
  cases heq
  exact hplace

section

variable (h : Inherits cfg exact prio s) (hinv : s.Inv)
include h hinv

theorem pend (hl : s.mutexLock = some (t, .pend m y)) : Inherits cfg exact prio (s.pend t m y) := by
  have hpt := hinv.not_pending (hinv.locked t _ hl).1 nofun
  refine h.plain_step (plain_of hl trivial) (plain_of_free rfl) rfl rfl rfl (fun w m' => ?_)
    (by simp [State.pend, State.leave]) fun hex u m' => ?_
  · rw [blockedOn_free rfl, blockedOn_locked hl]
    simp only [State.pend, State.leave, Section.blocksOn]
    obtain rfl | hne := eq_or_ne w t
    · simp [hpt]
    · simp [hne]
  · simp only [State.pend, State.leave]
    obtain rfl | hne := eq_or_ne u t
    · simp
    · simpa [hne] using h.quiet hex u m'

theorem recalcScan (hl : s.mutexLock = some (t, .recalcScan m)) (ho : s.owner m = some o) :
    Inherits cfg exact prio (s.stay t (.recalcAdjust m
      (s.heldMutexesHighestWaiterPrio cfg o (s.origPrio o)))) := by
  have hp := plain_of hl trivial
  have hb : ∀ w m', (s.stay t (.recalcAdjust m (s.heldMutexesHighestWaiterPrio cfg o
      (s.origPrio o)))).BlockedOn w m' ↔ s.BlockedOn w m' := fun w m' => blockedOn_stay hl rfl
  have hblocked : ∀ w m', s.BlockedOn w m' ↔ s.sched.pendedOn w = some m' := fun w m' =>
    blockedOn_idle hl rfl
  have hm : m ∈ s.heldMutexes o := by
    rw [hinv.held, Inv.releasing_iff hl]
    simp [ho, Section.releases]
  have horig := h.orig o (ne_nil_of_mem hm)
  obtain ⟨hle, hall, hor⟩ := hinv.scan_spec cfg (s.heldMutexes o)
  refine h.plain_step hp (plain_of rfl trivial) rfl rfl rfl hb ?_ h.quiet
  rintro u place heq
  cases heq
  refine ⟨h.place t _ hl, fun o' ho' => ?_⟩
  obtain rfl : o = o' := Option.some.inj (ho.symm.trans ho')
  refine ⟨?_, hle.trans horig.le, fun m' w hm' hw => ?_⟩
  · obtain heq | ⟨m', hm', w, hw, heq⟩ := hor
    · exact (h.base o).trans_eq (horig.symm.trans heq.symm)
    · exact (h.le_waiter hp hm' ((hblocked w m').2 hw)).trans_eq heq.symm
  · exact hall m' hm' w ((hblocked w m').1 ((hb w m').1 hw))

theorem recalcAdjust (hl : s.mutexLock = some (t, .recalcAdjust m p)) (ho : s.owner m = some o) :
    Inherits cfg exact prio ((s.adjustPrio o p).leave t .outside) := by
  have hp := plain_of hl trivial
  obtain ⟨hexact, hall⟩ := h.place t _ hl
  obtain ⟨hle, hcov⟩ := hall o ho
  have hm : m ∈ s.heldMutexes o := by
    rw [hinv.held, Inv.releasing_iff hl]
    simp [ho, Section.releases]
  set s' := (s.adjustPrio o p).leave t .outside with hs
  have hp' : s'.Plain := plain_of_free rfl
  have hprio : s'.sched.prio = update s.sched.prio o p := by simp [hs, State.leave]
  have hheld : s'.heldMutexes = s.heldMutexes := by simp [hs, State.leave]
  have hb : ∀ w m', s'.BlockedOn w m' ↔ s.BlockedOn w m' := fun w m' => by
    rw [blockedOn_free rfl, blockedOn_locked hl]
    simp [hs, State.leave, Section.blocksOn]
  have hgrow : ∀ w, s.sched.prio w ≤ s'.sched.prio w := fun w => by
    rw [hprio]
    obtain rfl | hne := eq_or_ne w o
    · rwa [update_self]
    · rw [update_of_ne hne]
  have hceil : ∀ w, getNewPrioWithCeiling cfg (s.sched.prio w) ≤
      getNewPrioWithCeiling cfg (s'.sched.prio w) := fun w => by
    simp only [withCeiling_eq]
    exact max_le_max_right _ (hgrow w)
  refine ⟨?_, fun x => ?_, fun x m' w hm' hw => ?_, fun x hx _ => ?_, by simp [hs, State.leave],
    fun hex => absurd hex hexact⟩
  · rw [hheld]
    simpa [hs, State.leave] using h.orig
  · rw [hprio]
    exact h.base_update hcov.base x
  · rw [hheld] at hm'
    rw [hb] at hw
    rw [hp'.due]
    refine le_trans ?_ (hceil w)
    rw [hprio]
    obtain rfl | hne := eq_or_ne x o
    · rw [update_self]
      exact hcov.waiter m' w hm' hw
    · rw [update_of_ne hne]
      exact h.le_waiter hp hm' hw
  · obtain hex | hnil := hx
    · exact absurd hex hexact
    rw [hheld] at hnil
    have hne : x ≠ o := by
      rintro rfl
      simp [hnil] at hm
    rw [hp'.target, hprio, update_of_ne hne]
    exact .inl (h.base_of_nil hp hnil)

theorem lastUnlock (hpc : s.pc t = .lastUnlock m) (hfree : s.mutexLock = none) :
    Inherits cfg exact prio (s.lastUnlock t m) := by
  have hp := plain_of_free hfree
  have hm : m ∈ s.heldMutexes t :=
    (hinv.held t m).2 ⟨(hinv.last t m hpc).1, Inv.not_releasing hfree⟩
  have horig := h.orig t (ne_nil_of_mem hm)
  obtain ⟨place, hplace⟩ : ∃ place, place = (if s.sched.prio t ≠ s.origPrio t then .unlockScan m
    else .handOff m : Section μ τ) := ⟨_, rfl⟩
  have hor : place = .unlockScan m ∨ place = .handOff m := by
    rw [hplace]
    split
    · exact .inl rfl
    · exact .inr rfl
  set s' := s.lastUnlock t m with hs
  have hl' : s'.mutexLock = some (t, place) := by rw [hplace]; rfl
  have hheld : ∀ x, x ≠ t → s'.heldMutexes x = s.heldMutexes x := fun x hne => by
    simp [hs, State.lastUnlock, State.enter, hne]
  have hsub : ∀ {x m'}, m' ∈ s'.heldMutexes x → m' ∈ s.heldMutexes x := fun {x m'} hm' => by
    obtain rfl | hne := eq_or_ne x t
    · simp only [hs, State.lastUnlock, State.enter, update_self] at hm'
      exact mem_of_mem_erase hm'
    · rwa [hheld x hne] at hm'
  have hb : ∀ w m', s'.BlockedOn w m' ↔ s.BlockedOn w m' := fun w m' => by
    rw [blockedOn_locked hl', blockedOn_free hfree]
    obtain h | h := hor <;> simp [h, Section.blocksOn, hs, State.lastUnlock, State.enter]
  have hdue : ∀ x m' w, s'.due x m' w = s.sched.prio x := fun x m' w => by
    rw [State.due, hl']
    obtain h | h := hor <;> rw [h] <;> rfl
  have htarget : ∀ x, s'.target x = s.sched.prio x := fun x => by
    rw [State.target, hl']
    obtain h | h := hor <;> rw [h] <;> rfl
  refine ⟨fun x hx => ?_, h.base, fun x m' w hm' hw => ?_, fun x hx hscan => ?_, ?_, ?_⟩
  · obtain ⟨m', hm'⟩ := exists_mem_of_ne_nil _ hx
    exact h.orig x (ne_nil_of_mem (hsub hm'))
  · rw [hdue]
    exact h.le_waiter hp (hsub hm') ((hb w m').1 hw)
  · rw [htarget]
    obtain rfl | hne := eq_or_ne x t
    · -- the scan is left out if the priority is the thread's own
      have hprio : s.sched.prio x = s.origPrio x := by
        by_contra hprio
        rw [if_pos hprio] at hplace
        exact hscan m (hplace ▸ hl')
      exact .inl (hprio.trans horig)
    · rw [hheld x hne] at hx
      have hold := h.attained x hx fun m => hp.not_scan
      rw [hp.target] at hold
      exact hold.carry fun m' w hm' hw _ => ⟨by rwa [hheld x hne], (hb w m').2 hw, rfl⟩
  · rintro u place' heq
    rw [hl'] at heq
    cases heq
    rw [hplace]
    split
    · exact horig
    · trivial
  · exact h.quiet_update (by simp)

theorem unlockScan (hl : s.mutexLock = some (t, .unlockScan m)) :
    Inherits cfg exact prio (s.stay t (.unlockAdjust m
      (s.heldMutexesHighestWaiterPrio cfg t (s.origPrio t)))) := by
  have horig : s.origPrio t = prio t := h.place t _ hl
  obtain ⟨hle, hall, hor⟩ := hinv.scan_spec cfg (s.heldMutexes t)
  set p := s.heldMutexesHighestWaiterPrio cfg t (s.origPrio t) with hscan
  have hblocked : ∀ w m', s.BlockedOn w m' ↔ s.sched.pendedOn w = some m' := fun w m' =>
    blockedOn_idle hl rfl
  refine h.stay hl rfl (fun x m' w hm' hw => ?_) (fun x hx => ?_)
    ⟨hle.trans horig.le, fun m' w hm' hw => hall m' hm' w ((hblocked w m').1 hw)⟩
  · have hold := h.waiter x m' w hm' hw
    rwa [State.due, hl] at hold
  obtain rfl | hne := eq_or_ne x t
  · have htarget : (s.stay x (.unlockAdjust m p)).target x = p := if_pos rfl
    rw [htarget]
    obtain heq | ⟨m', hm', w, hw, heq⟩ := hor
    · exact .inl (heq.trans horig)
    · exact .inr ⟨m', w, hm', (hblocked w m').2 hw, heq⟩
  · have htarget : (s.stay t (.unlockAdjust m p)).target x = s.sched.prio x := if_neg hne
    have hold := h.attained x hx (by simp [hl, hne.symm])
    rwa [State.target, hl, ← htarget] at hold

theorem unlockAdjust (hl : s.mutexLock = some (t, .unlockAdjust m p)) :
    Inherits cfg exact prio ((s.adjustPrio t p).stay t (.handOff m)) := by
  have hcov : Covers cfg prio s t p := h.place t _ hl
  have hpt := hinv.not_pending (hinv.locked t _ hl).1 nofun
  have hblocked : ∀ m', ¬s.BlockedOn t m' := fun m' => by
    rw [blockedOn_locked hl]
    simp [Section.blocksOn, hpt]
  set s' := (s.adjustPrio t p).stay t (.handOff m) with hs
  have hp' : s'.Plain := plain_of rfl trivial
  have hprio : s'.sched.prio = update s.sched.prio t p := by simp [hs, State.stay]
  have hheld : s'.heldMutexes = s.heldMutexes := by simp [hs, State.stay]
  have hb : ∀ w m', s'.BlockedOn w m' ↔ s.BlockedOn w m' := fun w m' => by
    rw [blockedOn_locked rfl, blockedOn_locked hl]
    simp [hs, State.stay, Section.blocksOn]
  have hother : ∀ {w m'}, s.BlockedOn w m' → s'.sched.prio w = s.sched.prio w := fun hw => by
    rw [hprio, update_of_ne]
    rintro rfl
    exact hblocked _ hw
  refine ⟨?_, fun x => ?_, fun x m' w hm' hw => ?_, fun x hx _ => ?_, ?_, ?_⟩
  · simpa [hs, State.stay] using h.orig
  · rw [hprio]
    exact h.base_update hcov.base x
  · rw [hheld] at hm'
    rw [hb] at hw
    rw [hp'.due, hother hw, hprio]
    obtain rfl | hne := eq_or_ne x t
    · rw [update_self]
      exact hcov.waiter m' w hm' hw
    · rw [update_of_ne hne]
      have hold := h.waiter x m' w hm' hw
      rwa [State.due, hl] at hold
  · rw [hheld] at hx
    have hold := h.attained x hx (by simp [hl])
    rw [State.target, hl] at hold
    have heq : s'.target x = if x = t then p else s.sched.prio x := by
      rw [hp'.target, hprio, update_apply]
    rw [heq]
    exact hold.carry fun m' w hm' hw _ => ⟨by rwa [hheld], (hb w m').2 hw, hother hw⟩
  · rintro u place heq
    cases heq
    trivial
  · simpa [hs, State.stay] using h.quiet

end

theorem free (h : Inherits cfg exact prio s) (hl : s.mutexLock = some (t, .handOff m)) :
    Inherits cfg exact prio ((s.free m).leave t .outside) := by
  refine h.plain_step (plain_of hl trivial) (plain_of_free rfl) rfl rfl rfl (fun w m' => ?_)
    (by simp [State.leave]) (h.quiet_update (by simp))
  rw [blockedOn_free rfl, blockedOn_locked hl]
  simp [State.leave, State.free, Section.blocksOn]

theorem grant (h : Inherits cfg exact prio s) (hinv : s.Inv)
    (hl : s.mutexLock = some (t, .handOff m)) (hq : s.sched.waitq m = w :: l) :
    Inherits cfg exact prio
      ((s.grant ((s.sched.unpendThreadNoTimeout w).tryAbortThreadTimeout w) w m).leave t
        .outside) := by
  obtain ⟨hpw, hbefore⟩ := hinv.sched.head hq
  have hpc := (hinv.waited w m hpw).2.1
  set s' := (s.grant ((s.sched.unpendThreadNoTimeout w).tryAbortThreadTimeout w) w m).leave t
    .outside with hs
  have hpend : s'.sched.pendedOn = update s.sched.pendedOn w none := by
    simp [hs, State.leave, State.grant, State.hold, State.setMutexPendedOn,
      WaitQs.threadReturnValueSet, WaitQs.tryAbortThreadTimeout]
  have hprio : s'.sched.prio = s.sched.prio := by
    simp [hs, State.leave, State.grant, State.hold, State.setMutexPendedOn,
      WaitQs.threadReturnValueSet, WaitQs.tryAbortThreadTimeout]
  have hb : ∀ v m', s'.BlockedOn v m' ↔ v ≠ w ∧ s.sched.pendedOn v = some m' := fun v m' => by
    rw [blockedOn_free rfl, hpend]
    obtain rfl | hne := eq_or_ne v w
    · simp
    · simp [hne]
  have hb' : ∀ v m', s.BlockedOn v m' ↔ s.sched.pendedOn v = some m' := fun v m' =>
    blockedOn_idle hl rfl
  refine h.hold (plain_of hl trivial) rfl rfl ?_ hprio
    (fun v m' hv => (hb' v m').2 ((hb v m').1 hv).2) (fun x v m' hm' hv => ?_) (fun v hv => ?_) ?_
  · simp [hs, State.leave, State.grant, State.hold, State.setMutexPendedOn,
      WaitQs.tryAbortThreadTimeout]
  · refine (hb v m').2 ⟨?_, (hb' v m').1 hv⟩
    rintro rfl
    rw [hb', hpw] at hv
    cases hv
    exact hinv.notMem_of_handOff hl hm'
  · obtain ⟨hne, hv⟩ := (hb v m).1 hv
    exact (hbefore v hv hne).prio_le
  intro hex u m'
  simp only [hs, State.leave, State.grant, State.hold, State.setMutexPendedOn, WaitQs.threadReturnValueSet, WaitQs.tryAbortThreadTimeout]
  obtain rfl | hut := eq_or_ne u t
  · simp
  · rw [update_of_ne hut]
    obtain rfl | huw := eq_or_ne u w
    · simp [hpc]
    · simpa [huw] using h.quiet hex u m'

theorem timeout {sched : WaitQs μ τ} (h : Inherits cfg exact prio s) (hinv : s.Inv)
    (hs : s.sched.zThreadTimeout t = some sched) (hexact : ¬exact) :
    Inherits cfg exact prio { s with sched } := by
  have hprio : sched.prio = s.sched.prio := by
    obtain ⟨-, rfl⟩ := by simpa [WaitQs.zThreadTimeout] using hs
    simp [WaitQs.tryAbortThreadTimeout]
  have hpend : ∀ {w m}, sched.pendedOn w = some m → s.sched.pendedOn w = some m := fun {w m} hw => by
    obtain ⟨-, rfl⟩ := by simpa [WaitQs.zThreadTimeout] using hs
    obtain rfl | hne := eq_or_ne w t
    · simp [WaitQs.tryAbortThreadTimeout] at hw
    · simpa [WaitQs.tryAbortThreadTimeout, hne] using hw
  have hb : ∀ w m, { s with sched }.BlockedOn w m → s.BlockedOn w m := fun w m => .imp_left hpend
  refine ⟨h.orig, ?_, fun x m w hm hw => ?_, fun x hx hscan => ?_, fun u place hl => ?_,
    fun hex => absurd hex hexact⟩
  · simpa only [hprio] using h.base
  · have := h.waiter x m w hm (hb w m hw)
    simpa only [State.due, hprio] using this
  · have hnil : s.heldMutexes x = [] := hx.resolve_left hexact
    obtain heq | ⟨m, -, hm, -⟩ := h.attained x (.inr hnil) hscan
    · left
      rw [← heq]
      cases hl : s.mutexLock with
      | none => simp [State.target, hl, hprio]
      | some holder =>
        obtain ⟨u, place⟩ := holder
        cases place with
        | follow k =>
          -- an owner for which somebody waits has a mutex on its list
          obtain ⟨hheld, -⟩ := walk_facts hinv hl rfl (h.place u _ hl)
          have hnot : ∀ o, (o : Option μ).bind s.owner ≠ some x := fun o ho => by
            obtain ⟨m, -, hm⟩ := Option.bind_eq_some_iff.1 ho
            have := (hheld x m).2 hm
            simp [hnil] at this
          simp only [State.target, hl, hprio]
          rw [if_neg (hnot _), if_neg (hnot _)]
        | _ => simp only [State.target, hl, hprio]
    · simp [hnil] at hm
  · exact (h.place u place hl).of_subset rfl rfl rfl hprio hb

theorem take (h : Inherits cfg exact prio s) (hinv : s.Inv) (hfree : s.mutexLock = none)
    (hor : s.lockCount m = 0 ∨ s.owner m = some t) (hcount : s.CountFits (.lock t m y)) :
    Inherits cfg exact prio (s.take t m) := by
  cases ho : s.owner m with
  | none =>
    have hz := (hinv.free m).2 ho
    have hs : s.take t m = { s with
        lockCount := update s.lockCount m 1
        owner := update s.owner m (some t) }.hold t m := by
      simp [State.take, hz]
    rw [hs]
    refine h.hold (plain_of_free hfree) hfree rfl rfl rfl (fun w m' => id)
      (fun x w m' _ => id) (fun w hw => ?_) h.quiet
    exact absurd ho (hinv.waited w m ((blockedOn_free hfree).1 hw)).1
  | some o =>
    have ho' : s.owner m = some t := hor.resolve_left fun hz => by simp [(hinv.free m).1 hz] at ho
    have hlt := hcount ho'
    have hz : s.lockCount m ≠ 0 := by simp [hinv.free, ho]
    have hs : s.take t m = { s with
        lockCount := update s.lockCount m (s.lockCount m + 1) } := by
      rw [State.take]
      simp only [Nat.mod_eq_of_lt hlt]
      rw [if_neg (by omega), ← ho', update_eq_self]
    rw [hs]
    exact h.quiet_step rfl rfl rfl rfl rfl rfl h.quiet

end Inherits

/-- A step of a run without timeouts, unless they are allowed. -/
def Calm (exact : Prop) : Action μ τ → Prop
  | .timeout _ => ¬exact
  | _ => True

theorem Inherits.move {a : Action μ τ} {es : List (Event μ τ)} (h : Inherits cfg exact prio s)
    (hinv : s.Inv) (hcalm : Calm exact a) (hcount : s.CountFits a) (hchain : s'.ChainsEnd)
    (hm : Move cfg s a s' es) : Inherits cfg exact prio s' := by
  cases hm with
  | @take t m _ hpc hfree hor => exact h.take hinv hfree hor hcount
  | refuse => exact h
  | block _ hfree _ ho hne => exact h.block hinv hfree ho hne rfl hchain
  | @deadlock t k hl hpend hcycle =>
    -- the chain would come back to the thread
    have hok : WalkOk cfg s t k := h.place t _ hl
    obtain ⟨-, hblocked, -⟩ := Inherits.walk_facts hinv hl rfl hok
    obtain ⟨m, hm⟩ := Option.isSome_iff_exists.1 hpend
    rw [(hinv.waited _ m hm).2.2] at hcycle
    have hone : Hops s.WaitsFor 1 k.chainOwner t := .head ⟨m, (hblocked m).2 hm, hcycle⟩ .refl
    exact absurd rfl (hok.away 0 t hone).1
  | detect hl => exact h.detect hl
  | boost hl ho hlt =>
    obtain rfl := Option.some.inj (ho.symm.trans (hinv.locked _ _ hl).2.2.2)
    exact h.boost hinv hl hlt
  | noBoost hl hle => exact h.noBoost hinv hl hle
  | follow hl hk => exact h.follow hinv hl hk
  | stop hl hk => exact h.stop hinv hl hk
  | pend hl => exact h.pend hinv hl
  | recalcScan hl ho => exact h.recalcScan hinv hl ho
  | recalcAdjust hl ho => exact h.recalcAdjust hinv hl ho
  | unlockScan hl => exact h.unlockScan hinv hl
  | unlockAdjust hl ho =>
    obtain rfl := Option.some.inj (ho.symm.trans (hinv.locked _ _ hl).2.1)
    exact h.unlockAdjust hinv hl
  | free hl => exact h.free hl
  | grant hl hq => exact h.grant hinv hl hq
  | resume => exact h.quiet_step rfl rfl rfl rfl rfl rfl (h.quiet_update (by simp))
  | giveUp hpc hp hr =>
    exact h.quiet_step rfl rfl rfl rfl rfl rfl fun hex => absurd ((h.quiet hex _ _).2 hpc hp) hr
  | unowned => exact h.quiet_step rfl rfl rfl rfl rfl rfl (h.quiet_update (by simp))
  | recalc hpc hfree =>
    have hexact : ¬exact := fun hex => (h.quiet hex _ _).1 hpc
    refine h.plain_step (plain_of_free hfree) (Inherits.plain_of rfl trivial) rfl rfl rfl
      (fun w m' => ?_) ?_ (h.quiet_update (by simp))
    · rw [blockedOn_locked rfl, blockedOn_free hfree]
      simp [State.enter, State.setMutexPendedOn, Section.blocksOn]
    · rintro u place heq
      cases heq
      exact hexact
  | invalid => exact h
  | unlock => exact h.quiet_step rfl rfl rfl rfl rfl rfl (h.quiet_update (by simp))
  | notOwner => exact h.quiet_step rfl rfl rfl rfl rfl rfl (h.quiet_update (by simp))
  | recursive => exact h.quiet_step rfl rfl rfl rfl rfl rfl (h.quiet_update (by simp))
  | last => exact h.quiet_step rfl rfl rfl rfl rfl rfl (h.quiet_update (by simp))
  | release hpc hfree => exact h.lastUnlock hinv hpc hfree
  | expire hs =>
    obtain ⟨-, hs⟩ := Option.ite_none_right_eq_some.1 hs
    cases hs
    exact h.quiet_step rfl rfl rfl rfl rfl rfl h.quiet
  | timeout hs => exact h.timeout hinv hs hcalm

end State

end ZephyrRtos.Mutex
