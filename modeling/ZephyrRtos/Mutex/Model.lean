import ZephyrRtos.Lib.Run
import ZephyrRtos.Sched.WaitQ

/-! `kernel/mutex.c`: recursive mutexes with priority inheritance. A step is what one thread does
between two points where another thread or a timeout can come in, so a section under
`mutex_lock` is several steps: timeouts only need the scheduler's lock. -/

namespace ZephyrRtos.Mutex

open Function Lib Sched

structure Config where
  priorityCeiling : ℤ
  deadlockDetect : Bool

def maxHops : ℕ := 16

def ebusy : ℤ := 16
def einval : ℤ := 22
def eperm : ℤ := 1

variable {μ τ : Type}

/-- The locals of the chain walk of `k_mutex_lock`. -/
structure Walk (μ τ : Type) where
  mutex : μ
  timeout : KTimeout
  boostPrio : ℤ
  chainMutex : μ
  chainOwner : τ
  hops : ℕ
  allForever : Bool

/-- Where the holder of `mutex_lock` is. -/
inductive Section (μ τ : Type)
  | detect (walk : Walk μ τ)
  | boost (walk : Walk μ τ)
  | follow (walk : Walk μ τ)
  | pend (mutex : μ) (timeout : KTimeout)
  | recalcScan (mutex : μ)
  | recalcAdjust (mutex : μ) (newPrio : ℤ)
  | unlockScan (mutex : μ)
  | unlockAdjust (mutex : μ) (newPrio : ℤ)
  | handOff (mutex : μ)

inductive Pc (μ : Type)
  | outside
  | inside
  | waiting (mutex : μ)
  | timedOut (mutex : μ)
  | checkOwner (mutex : μ)
  | lastUnlock (mutex : μ)
  deriving DecidableEq

structure State (μ τ : Type) where
  sched : WaitQs μ τ
  owner : μ → Option τ
  lockCount : μ → ℕ
  origPrio : τ → ℤ
  heldMutexes : τ → List μ
  mutexPendedOn : τ → Option μ
  pc : τ → Pc μ
  mutexLock : Option (τ × Section μ τ)

/-- A lock that succeeds is granted before the call returns if the thread had to wait. -/
inductive Event (μ τ : Type)
  | acquired (thread : τ) (mutex : μ)
  | released (thread : τ) (mutex : μ)
  | returned (thread : τ) (value : ℤ)
  deriving DecidableEq

variable (cfg : Config)

def getNewPrioWithCeiling (prio : ℤ) : ℤ :=
  if cfg.priorityCeiling ≤ prio then prio else cfg.priorityCeiling

def newPrioForInheritance (target limit : ℤ) : ℤ :=
  getNewPrioWithCeiling cfg (if target < limit then target else limit)

namespace State

variable (s : State μ τ)

def init (prio : τ → ℤ) : State μ τ where
  sched := .init prio
  owner _ := none
  lockCount _ := 0
  origPrio _ := 0
  heldMutexes _ := []
  mutexPendedOn _ := none
  pc _ := .outside
  mutexLock := none

/-- The body of the loop over `held_mutexes`. -/
def scanMutex (prio : ℤ) (m : μ) : ℤ :=
  match zPriqSimpleBest (s.sched.waitq m) with
  | none => prio
  | some waiter =>
    let wprio := getNewPrioWithCeiling cfg (s.sched.prio waiter)
    if wprio < prio then wprio else prio

def heldMutexesHighestWaiterPrio (thread : τ) (floorPrio : ℤ) : ℤ :=
  (s.heldMutexes thread).foldl (s.scanMutex cfg) floorPrio

variable [DecidableEq μ] [DecidableEq τ]

def stay (thread : τ) (place : Section μ τ) : State μ τ :=
  { s with mutexLock := some (thread, place) }

def enter (thread : τ) (place : Section μ τ) : State μ τ :=
  { s with mutexLock := some (thread, place), pc := update s.pc thread .inside }

def goto (thread : τ) (pc : Pc μ) : State μ τ :=
  { s with pc := update s.pc thread pc }

def leave (thread : τ) (pc : Pc μ) : State μ τ :=
  { s with mutexLock := none, pc := update s.pc thread pc }

def setMutexPendedOn (thread : τ) (mutex : Option μ) : State μ τ :=
  { s with mutexPendedOn := update s.mutexPendedOn thread mutex }

def adjustPrio (thread : τ) (newPrio : ℤ) : State μ τ :=
  if s.sched.prio thread ≠ newPrio then
    { s with sched := s.sched.zThreadPrioSet thread newPrio }
  else s

/-- No step is taken through a null owner. -/
def adjustOwnerPrio (mutex : μ) (newPrio : ℤ) : Option (State μ τ) :=
  (s.owner mutex).map (s.adjustPrio · newPrio)

/-- The mutex goes to the end of the thread's list, whose first entry fixes `orig_prio`. -/
def hold (thread : τ) (mutex : μ) : State μ τ :=
  { s with
    origPrio := if s.heldMutexes thread = [] then
      update s.origPrio thread (s.sched.prio thread) else s.origPrio
    heldMutexes := update s.heldMutexes thread (s.heldMutexes thread ++ [mutex]) }

def take (thread : τ) (mutex : μ) : State μ τ :=
  let lockCount := (s.lockCount mutex + 1) % 2 ^ 32
  let s := { s with
    lockCount := update s.lockCount mutex lockCount
    owner := update s.owner mutex (some thread) }
  if lockCount = 1 then s.hold thread mutex else s

/-- `k_mutex_lock` up to the chain walk. -/
def lock (thread : τ) (mutex : μ) (timeout : KTimeout) : Option (State μ τ × List (Event μ τ)) :=
  if s.lockCount mutex = 0 ∨ s.owner mutex = some thread then
    some (s.take thread mutex, [.acquired thread mutex, .returned thread 0])
  else if timeout = .noWait then some (s, [.returned thread (-ebusy)])
  else do
    let owner ← s.owner mutex
    let s := s.setMutexPendedOn thread (some mutex)
    return (s.enter thread (.detect {
      mutex, timeout
      boostPrio := newPrioForInheritance cfg (s.sched.prio thread) (s.sched.prio owner)
      chainMutex := mutex
      chainOwner := owner
      hops := 0
      allForever := timeout = .forever }), [])

def detect (thread : τ) (k : Walk μ τ) : State μ τ :=
  let allForever := k.allForever && s.sched.timeout k.chainOwner ≠ .armed
  if cfg.deadlockDetect && allForever && s.sched.isThreadPending k.chainOwner &&
      (s.mutexPendedOn k.chainOwner).bind s.owner = some thread then
    s.stay thread (.pend k.mutex k.timeout)
  else s.stay thread (.boost { k with allForever })

def boost (thread : τ) (k : Walk μ τ) : Option (State μ τ) :=
  if k.boostPrio < s.sched.prio k.chainOwner then
    (s.adjustOwnerPrio k.chainMutex k.boostPrio).map (·.stay thread (.follow k))
  else some (s.stay thread (.follow k))

def nextWalk (k : Walk μ τ) : Option (Walk μ τ) := do
  let chainMutex ← s.mutexPendedOn k.chainOwner
  if s.sched.isThreadPending k.chainOwner ∧ chainMutex ≠ k.mutex ∧ k.hops + 1 < maxHops then
    let chainOwner ← s.owner chainMutex
    return { k with chainMutex, chainOwner, hops := k.hops + 1 }
  else none

def follow (thread : τ) (k : Walk μ τ) : State μ τ :=
  match s.nextWalk k with
  | none => s.stay thread (.pend k.mutex k.timeout)
  | some k => s.stay thread (.detect k)

def pend (thread : τ) (mutex : μ) (timeout : KTimeout) : State μ τ :=
  { s with sched := s.sched.pendLocked thread mutex timeout }.leave thread (.waiting mutex)

def grant (sched : WaitQs μ τ) (newOwner : τ) (mutex : μ) : State μ τ :=
  let s := { s with sched, owner := update s.owner mutex (some newOwner) }
  let s := (s.hold newOwner mutex).setMutexPendedOn newOwner none
  { s with sched := s.sched.threadReturnValueSet newOwner 0 }

def free (mutex : μ) : State μ τ :=
  { s with
    owner := update s.owner mutex none
    lockCount := update s.lockCount mutex 0 }

def handOff (thread : τ) (mutex : μ) : State μ τ × List (Event μ τ) :=
  match s.sched.zUnpendFirstThreadLocked mutex with
  | (none, _) => ((s.free mutex).leave thread .outside,
      [.released thread mutex, .returned thread 0])
  | (some newOwner, sched) => ((s.grant sched newOwner mutex).leave thread .outside,
      [.released thread mutex, .acquired newOwner mutex, .returned thread 0])

/-- The holder of `mutex_lock` goes on. -/
def advanceIn (thread : τ) : Section μ τ → Option (State μ τ × List (Event μ τ))
  | .detect k => some (s.detect cfg thread k, [])
  | .boost k => (s.boost thread k).map (·, [])
  | .follow k => some (s.follow thread k, [])
  | .pend mutex timeout => some (s.pend thread mutex timeout, [])
  | .recalcScan mutex => do
    let owner ← s.owner mutex
    let newPrio := s.heldMutexesHighestWaiterPrio cfg owner (s.origPrio owner)
    return (s.stay thread (.recalcAdjust mutex newPrio), [])
  | .recalcAdjust mutex newPrio => (s.adjustOwnerPrio mutex newPrio).map fun s =>
    (s.leave thread .outside, [.returned thread (-eagain)])
  | .unlockScan mutex =>
    let newPrio := s.heldMutexesHighestWaiterPrio cfg thread (s.origPrio thread)
    some (s.stay thread (.unlockAdjust mutex newPrio), [])
  | .unlockAdjust mutex newPrio => (s.adjustOwnerPrio mutex newPrio).map fun s =>
    (s.stay thread (.handOff mutex), [])
  | .handOff mutex => some (s.handOff thread mutex)

/-- The return from `z_pend_curr`, once the thread is ready. -/
def resume (thread : τ) (mutex : μ) : Option (State μ τ × List (Event μ τ)) :=
  if s.sched.isThreadPending thread then none
  else if s.sched.swapRetval thread = 0 then
    some ((s.setMutexPendedOn thread none).goto thread .outside, [.returned thread 0])
  else some (s.goto thread (.timedOut mutex), [])

def afterTimeout (thread : τ) (mutex : μ) : State μ τ × List (Event μ τ) :=
  let s := s.setMutexPendedOn thread none
  if s.owner mutex = none then (s.goto thread .outside, [.returned thread (-eagain)])
  else (s.enter thread (.recalcScan mutex), [])

/-- `k_mutex_unlock`. The checks and the recursive unlock are outside of `mutex_lock`. -/
def unlock (thread : τ) (mutex : μ) : State μ τ × List (Event μ τ) :=
  if s.owner mutex = none then (s, [.returned thread (-einval)])
  else (s.goto thread (.checkOwner mutex), [])

def checkOwner (thread : τ) (mutex : μ) : State μ τ × List (Event μ τ) :=
  if s.owner mutex ≠ some thread then (s.goto thread .outside, [.returned thread (-eperm)])
  else if 1 < s.lockCount mutex then
    ({ s with lockCount := update s.lockCount mutex (s.lockCount mutex - 1) }.goto thread
      .outside, [.released thread mutex, .returned thread 0])
  else (s.goto thread (.lastUnlock mutex), [])

def lastUnlock (thread : τ) (mutex : μ) : State μ τ :=
  { s with
    heldMutexes := update s.heldMutexes thread ((s.heldMutexes thread).erase mutex) }.enter
    thread (if s.sched.prio thread ≠ s.origPrio thread then .unlockScan mutex else .handOff mutex)

def advance (thread : τ) : Option (State μ τ × List (Event μ τ)) :=
  match s.pc thread with
  | .outside => none
  | .inside => do
    let (holder, place) ← s.mutexLock
    if holder = thread then s.advanceIn cfg thread place else none
  | .waiting mutex => s.resume thread mutex
  | .timedOut mutex => if s.mutexLock.isNone then some (s.afterTimeout thread mutex) else none
  | .checkOwner mutex => some (s.checkOwner thread mutex)
  | .lastUnlock mutex =>
    if s.mutexLock.isNone then some (s.lastUnlock thread mutex, []) else none

end State

/-- What can happen next: a call, one more step of a call, the tick of a timeout or its
handler. -/
inductive Action (μ τ : Type)
  | lock (thread : τ) (mutex : μ) (timeout : KTimeout)
  | unlock (thread : τ) (mutex : μ)
  | advance (thread : τ)
  | expire (thread : τ)
  | timeout (thread : τ)

variable [DecidableEq μ] [DecidableEq τ]

def State.step (s : State μ τ) : Action μ τ → Option (State μ τ × List (Event μ τ))
  | .lock thread mutex timeout =>
    if s.pc thread = .outside ∧ s.mutexLock.isNone then s.lock cfg thread mutex timeout else none
  | .unlock thread mutex =>
    if s.pc thread = .outside then some (s.unlock thread mutex) else none
  | .advance thread => s.advance cfg thread
  | .expire thread => (s.sched.expire thread).map fun sched => ({ s with sched }, [])
  | .timeout thread => (s.sched.zThreadTimeout thread).map fun sched => ({ s with sched }, [])

def mutexes (prio : τ → ℤ) : System (State μ τ) (Action μ τ) (Event μ τ) where
  init := .init prio
  step := State.step cfg

inductive Move (s : State μ τ) : Action μ τ → State μ τ → List (Event μ τ) → Prop
  | take {t m w} (hpc : s.pc t = .outside) (hfree : s.mutexLock = none)
      (h : s.lockCount m = 0 ∨ s.owner m = some t) :
      Move s (.lock t m w) (s.take t m) [.acquired t m, .returned t 0]
  | refuse {t m w} : Move s (.lock t m w) s [.returned t (-ebusy)]
  | block {t m w o} (hpc : s.pc t = .outside) (hfree : s.mutexLock = none)
      (hcount : s.lockCount m ≠ 0) (ho : s.owner m = some o) (hne : o ≠ t) :
      Move s (.lock t m w) ((s.setMutexPendedOn t (some m)).enter t (.detect ⟨m, w,
        newPrioForInheritance cfg (s.sched.prio t) (s.sched.prio o), m, o, 0, w = .forever⟩)) []
  | deadlock {t k} (hl : s.mutexLock = some (t, .detect k)) (ho : s.sched.isThreadPending k.chainOwner)
      (hcycle : (s.mutexPendedOn k.chainOwner).bind s.owner = some t) :
      Move s (.advance t) (s.stay t (.pend k.mutex k.timeout)) []
  | detect {t k b} (hl : s.mutexLock = some (t, .detect k)) :
      Move s (.advance t) (s.stay t (.boost { k with allForever := b })) []
  | boost {t k o} (hl : s.mutexLock = some (t, .boost k)) (ho : s.owner k.chainMutex = some o)
      (hlt : k.boostPrio < s.sched.prio k.chainOwner) :
      Move s (.advance t) ((s.adjustPrio o k.boostPrio).stay t (.follow k)) []
  | noBoost {t k} (hl : s.mutexLock = some (t, .boost k))
      (hle : s.sched.prio k.chainOwner ≤ k.boostPrio) :
      Move s (.advance t) (s.stay t (.follow k)) []
  | follow {t k k'} (hl : s.mutexLock = some (t, .follow k)) (hk : s.nextWalk k = some k') :
      Move s (.advance t) (s.stay t (.detect k')) []
  | stop {t k} (hl : s.mutexLock = some (t, .follow k)) (hk : s.nextWalk k = none) :
      Move s (.advance t) (s.stay t (.pend k.mutex k.timeout)) []
  | pend {t m w} (hl : s.mutexLock = some (t, .pend m w)) : Move s (.advance t) (s.pend t m w) []
  | recalcScan {t m o} (hl : s.mutexLock = some (t, .recalcScan m)) (ho : s.owner m = some o) :
      Move s (.advance t) (s.stay t (.recalcAdjust m
        (s.heldMutexesHighestWaiterPrio cfg o (s.origPrio o)))) []
  | recalcAdjust {t m p o} (hl : s.mutexLock = some (t, .recalcAdjust m p))
      (ho : s.owner m = some o) :
      Move s (.advance t) ((s.adjustPrio o p).leave t .outside) [.returned t (-eagain)]
  | unlockScan {t m} (hl : s.mutexLock = some (t, .unlockScan m)) :
      Move s (.advance t) (s.stay t (.unlockAdjust m
        (s.heldMutexesHighestWaiterPrio cfg t (s.origPrio t)))) []
  | unlockAdjust {t m p o} (hl : s.mutexLock = some (t, .unlockAdjust m p))
      (ho : s.owner m = some o) :
      Move s (.advance t) ((s.adjustPrio o p).stay t (.handOff m)) []
  | free {t m} (hl : s.mutexLock = some (t, .handOff m)) (hq : s.sched.waitq m = []) :
      Move s (.advance t) ((s.free m).leave t .outside) [.released t m, .returned t 0]
  | grant {t m w l} (hl : s.mutexLock = some (t, .handOff m)) (hq : s.sched.waitq m = w :: l) :
      Move s (.advance t)
        ((s.grant ((s.sched.unpendThreadNoTimeout w).tryAbortThreadTimeout w) w m).leave t .outside)
        [.released t m, .acquired w m, .returned t 0]
  | resume {t m} (hpc : s.pc t = .waiting m) (hp : s.sched.pendedOn t = none)
      (hr : s.sched.swapRetval t = 0) :
      Move s (.advance t) ((s.setMutexPendedOn t none).goto t .outside) [.returned t 0]
  | giveUp {t m} (hpc : s.pc t = .waiting m) (hp : s.sched.pendedOn t = none)
      (hr : s.sched.swapRetval t ≠ 0) : Move s (.advance t) (s.goto t (.timedOut m)) []
  | unowned {t m} (hpc : s.pc t = .timedOut m) (hfree : s.mutexLock = none)
      (ho : s.owner m = none) :
      Move s (.advance t) ((s.setMutexPendedOn t none).goto t .outside) [.returned t (-eagain)]
  | recalc {t m o} (hpc : s.pc t = .timedOut m) (hfree : s.mutexLock = none)
      (ho : s.owner m = some o) :
      Move s (.advance t) ((s.setMutexPendedOn t none).enter t (.recalcScan m)) []
  | invalid {t m} : Move s (.unlock t m) s [.returned t (-einval)]
  | unlock {t m} (hpc : s.pc t = .outside) : Move s (.unlock t m) (s.goto t (.checkOwner m)) []
  | notOwner {t m} (hpc : s.pc t = .checkOwner m) :
      Move s (.advance t) (s.goto t .outside) [.returned t (-eperm)]
  | recursive {t m} (hpc : s.pc t = .checkOwner m) (ho : s.owner m = some t)
      (hcount : 1 < s.lockCount m) :
      Move s (.advance t)
        ({ s with lockCount := update s.lockCount m (s.lockCount m - 1) }.goto t .outside)
        [.released t m, .returned t 0]
  | last {t m} (hpc : s.pc t = .checkOwner m) (ho : s.owner m = some t)
      (hcount : s.lockCount m ≤ 1) : Move s (.advance t) (s.goto t (.lastUnlock m)) []
  | release {t m} (hpc : s.pc t = .lastUnlock m) (hfree : s.mutexLock = none) :
      Move s (.advance t) (s.lastUnlock t m) []
  | expire {t sched} (h : s.sched.expire t = some sched) : Move s (.expire t) { s with sched } []
  | timeout {t sched} (h : s.sched.zThreadTimeout t = some sched) :
      Move s (.timeout t) { s with sched } []

variable {cfg} {s s' : State μ τ} {t : τ} {a : Action μ τ} {es : List (Event μ τ)}

namespace State

section AdjustPrio

variable (s t) (p : ℤ)

@[simp] theorem adjustPrio_owner : (s.adjustPrio t p).owner = s.owner := by
  rw [adjustPrio]; split <;> rfl

@[simp] theorem adjustPrio_lockCount : (s.adjustPrio t p).lockCount = s.lockCount := by
  rw [adjustPrio]; split <;> rfl

@[simp] theorem adjustPrio_origPrio : (s.adjustPrio t p).origPrio = s.origPrio := by
  rw [adjustPrio]; split <;> rfl

@[simp] theorem adjustPrio_heldMutexes : (s.adjustPrio t p).heldMutexes = s.heldMutexes := by
  rw [adjustPrio]; split <;> rfl

@[simp] theorem adjustPrio_mutexPendedOn : (s.adjustPrio t p).mutexPendedOn = s.mutexPendedOn := by
  rw [adjustPrio]; split <;> rfl

@[simp] theorem adjustPrio_pc : (s.adjustPrio t p).pc = s.pc := by
  rw [adjustPrio]; split <;> rfl

@[simp] theorem adjustPrio_mutexLock : (s.adjustPrio t p).mutexLock = s.mutexLock := by
  rw [adjustPrio]; split <;> rfl

@[simp] theorem adjustPrio_pendedOn : (s.adjustPrio t p).sched.pendedOn = s.sched.pendedOn := by
  rw [adjustPrio]; split <;> simp

@[simp] theorem adjustPrio_swapRetval :
    (s.adjustPrio t p).sched.swapRetval = s.sched.swapRetval := by
  rw [adjustPrio]; split <;> simp

@[simp] theorem adjustPrio_prio : (s.adjustPrio t p).sched.prio = update s.sched.prio t p := by
  rw [adjustPrio]
  split
  · simp
  · next h =>
    rw [not_not] at h
    rw [← h, update_eq_self]

end AdjustPrio

theorem nextWalk_eq_some : s.nextWalk k = some k' ↔
    ∃ m o, s.mutexPendedOn k.chainOwner = some m ∧ s.sched.isThreadPending k.chainOwner ∧
      m ≠ k.mutex ∧ k.hops + 1 < maxHops ∧ s.owner m = some o ∧
      { k with chainMutex := m, chainOwner := o, hops := k.hops + 1 } = k' := by
  rw [nextWalk]
  simp only [Option.bind_eq_bind, Option.bind_eq_some_iff, Option.ite_none_right_eq_some,
    Option.pure_def, Option.some.injEq]
  constructor
  · rintro ⟨m, hm, ⟨hp, hne, hlt⟩, o, ho, hk⟩
    exact ⟨m, o, hm, hp, hne, hlt, ho, hk⟩
  · rintro ⟨m, o, hm, hp, hne, hlt, ho, hk⟩
    exact ⟨m, hm, ⟨hp, hne, hlt⟩, o, ho, hk⟩

theorem move_of_lock (hpc : s.pc t = .outside) (hfree : s.mutexLock = none)
    (h : s.lock cfg t m w = some (s', es)) : Move cfg s (.lock t m w) s' es := by
  rw [State.lock] at h
  split at h
  · next hm =>
    cases h
    exact .take hpc hfree hm
  next hm =>
  rw [not_or] at hm
  split at h
  · cases h
    exact .refuse
  · obtain ⟨o, ho, h⟩ := Option.bind_eq_some_iff.1 h
    cases h
    refine .block hpc hfree hm.1 ho ?_
    rintro rfl
    exact hm.2 ho

theorem move_of_advanceIn (hl : s.mutexLock = some (t, place))
    (h : s.advanceIn cfg t place = some (s', es)) : Move cfg s (.advance t) s' es := by
  cases place with
  | detect k =>
    cases h
    rw [State.detect]
    split
    · next hd =>
      simp only [Bool.and_eq_true, decide_eq_true_eq] at hd
      exact .deadlock hl hd.1.2 hd.2
    · exact .detect hl
  | boost k =>
    obtain ⟨s1, hs, heq⟩ := Option.map_eq_some_iff.1 h
    obtain ⟨rfl, rfl⟩ := Prod.mk.inj heq
    rw [State.boost] at hs
    split at hs
    · next hlt =>
      obtain ⟨s2, hadj, rfl⟩ := Option.map_eq_some_iff.1 hs
      obtain ⟨o, ho, rfl⟩ := Option.map_eq_some_iff.1 hadj
      exact .boost hl ho hlt
    · next hle =>
      cases hs
      exact .noBoost hl (not_lt.1 hle)
  | follow k =>
    cases h
    rw [State.follow]
    split
    · next hk => exact .stop hl hk
    · next hk => exact .follow hl hk
  | pend m w =>
    cases h
    exact .pend hl
  | recalcScan m =>
    obtain ⟨o, ho, h⟩ := Option.bind_eq_some_iff.1 h
    cases h
    exact .recalcScan hl ho
  | recalcAdjust m p =>
    obtain ⟨s1, hs, heq⟩ := Option.map_eq_some_iff.1 h
    obtain ⟨rfl, rfl⟩ := Prod.mk.inj heq
    obtain ⟨o, ho, rfl⟩ := Option.map_eq_some_iff.1 hs
    exact .recalcAdjust hl ho
  | unlockScan m =>
    cases h
    exact .unlockScan hl
  | unlockAdjust m p =>
    obtain ⟨s1, hs, heq⟩ := Option.map_eq_some_iff.1 h
    obtain ⟨rfl, rfl⟩ := Prod.mk.inj heq
    obtain ⟨o, ho, rfl⟩ := Option.map_eq_some_iff.1 hs
    exact .unlockAdjust hl ho
  | handOff m =>
    replace h := Option.some.inj h
    rw [State.handOff, WaitQs.zUnpendFirstThreadLocked] at h
    cases hq : s.sched.waitq m with
    | nil =>
      rw [hq] at h
      obtain ⟨rfl, rfl⟩ := Prod.mk.inj h
      exact .free hl hq
    | cons w l =>
      rw [hq] at h
      obtain ⟨rfl, rfl⟩ := Prod.mk.inj h
      exact .grant hl hq

theorem move_of_advance (h : s.advance cfg t = some (s', es)) : Move cfg s (.advance t) s' es := by
  rw [State.advance] at h
  split at h
  · cases h
  · obtain ⟨⟨u, place⟩, hl, h⟩ := Option.bind_eq_some_iff.1 h
    obtain ⟨rfl, h⟩ : u = t ∧ s.advanceIn cfg t place = some (s', es) :=
      Option.ite_none_right_eq_some.1 h
    exact move_of_advanceIn hl h
  · next m hpc =>
    rw [State.resume, WaitQs.isThreadPending] at h
    split at h
    · cases h
    next hp =>
    rw [Bool.not_eq_true, Option.isSome_eq_false_iff, Option.isNone_iff_eq_none] at hp
    split at h
    · next hr =>
      cases h
      exact .resume hpc hp hr
    · next hr =>
      cases h
      exact .giveUp hpc hp hr
  · next m hpc =>
    obtain ⟨hfree, h⟩ := Option.ite_none_right_eq_some.1 h
    rw [Option.isNone_iff_eq_none] at hfree
    rw [State.afterTimeout] at h
    cases ho : s.owner m with
    | none =>
      obtain ⟨rfl, rfl⟩ : (s.setMutexPendedOn t none).goto t .outside = s' ∧ _ = es := by
        simpa [State.setMutexPendedOn, ho] using h
      exact .unowned hpc hfree ho
    | some o =>
      obtain ⟨rfl, rfl⟩ : (s.setMutexPendedOn t none).enter t (.recalcScan m) = s' ∧ [] = es := by
        simpa [State.setMutexPendedOn, ho] using h
      exact .recalc hpc hfree ho
  · next m hpc =>
    replace h := Option.some.inj h
    rw [State.checkOwner] at h
    split at h
    · obtain ⟨rfl, rfl⟩ := Prod.mk.inj h
      exact .notOwner hpc
    next ho =>
    rw [not_not] at ho
    split at h
    · next hcount =>
      obtain ⟨rfl, rfl⟩ := Prod.mk.inj h
      exact .recursive hpc ho hcount
    · next hcount =>
      obtain ⟨rfl, rfl⟩ := Prod.mk.inj h
      exact .last hpc ho (not_lt.1 hcount)
  · next m hpc =>
    obtain ⟨hfree, h⟩ := Option.ite_none_right_eq_some.1 h
    cases h
    exact .release hpc (Option.isNone_iff_eq_none.1 hfree)

theorem move_of_step (h : s.step cfg a = some (s', es)) : Move cfg s a s' es := by
  cases a with
  | lock t m w =>
    obtain ⟨⟨hpc, hfree⟩, h⟩ := Option.ite_none_right_eq_some.1 h
    exact move_of_lock hpc (Option.isNone_iff_eq_none.1 hfree) h
  | unlock t m =>
    obtain ⟨hpc, h⟩ := Option.ite_none_right_eq_some.1 h
    replace h := Option.some.inj h
    rw [State.unlock] at h
    split at h
    · obtain ⟨rfl, rfl⟩ := Prod.mk.inj h
      exact .invalid
    · obtain ⟨rfl, rfl⟩ := Prod.mk.inj h
      exact .unlock hpc
  | advance t => exact move_of_advance h
  | expire t =>
    obtain ⟨sched, hs, heq⟩ := Option.map_eq_some_iff.1 h
    obtain ⟨rfl, rfl⟩ := Prod.mk.inj heq
    exact .expire hs
  | timeout t =>
    obtain ⟨sched, hs, heq⟩ := Option.map_eq_some_iff.1 h
    obtain ⟨rfl, rfl⟩ := Prod.mk.inj heq
    exact .timeout hs

end State

end ZephyrRtos.Mutex
