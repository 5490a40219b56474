import ZephyrRtos.Lib.Run
import ZephyrRtos.Sched.WaitQ

/-! `kernel/work.c`: work items, delayable work and the threads of work queues. Every critical
section of `work_lock` is one step, so that the lock is free in every state; `unschedule_locked`
drops the lock while it waits for a timeout handler. -/

namespace ZephyrRtos.Work

open Function Lib Sched

def ebusy : ℤ := 16

def enodev : ℤ := 19

def einval : ℤ := 22

def ealready : ℤ := 120

/-- The bits of `K_WORK_MASK`. -/
structure WorkFlags where
  running : Bool
  canceling : Bool
  queued : Bool
  delayed : Bool
  flushing : Bool
  deriving DecidableEq

def WorkFlags.zero : WorkFlags := ⟨false, false, false, false, false⟩

def WorkFlags.bits (f : WorkFlags) : ℕ :=
  f.running.toNat + 2 * f.canceling.toNat + 4 * f.queued.toNat + 8 * f.delayed.toNat +
    16 * f.flushing.toNat

structure QueueFlags where
  started : Bool
  busy : Bool
  drain : Bool
  plugged : Bool
  deriving DecidableEq

def QueueFlags.zero : QueueFlags := ⟨false, false, false, false⟩

/-- A client's work item, or the one in the `k_work_sync` of a thread that flushes. -/
inductive Item (ω τ : Type)
  | work (w : ω)
  | flusher (t : τ)
  deriving DecidableEq

inductive Delay
  | noWait
  | ticks
  | forever
  deriving DecidableEq

inductive Rest (κ : Type)
  | cancel
  | cancelSync
  | reschedule (q : κ) (delay : Delay)
  | flush
  deriving DecidableEq

/-- Where a caller is. `caller` is the queue whose thread it is, if any. -/
inductive Pc (ω κ : Type)
  | outside
  | flushing
  | cancelling (w : ω)
  | draining (q : κ)
  | drained
  | unscheduling (w : ω) (caller : Option κ) (rest : Rest κ)
  deriving DecidableEq

/-- `queue` and `delayQueue` are `queue` of the work item and of the delayable item, `current` is
what a queue's thread runs, and `inflight` is the timeout whose handler is on its way, with whether
the handler has had `work_lock`. -/
structure State (ω τ κ : Type) where
  flags : Item ω τ → WorkFlags
  queue : ω → Option κ
  pending : κ → List (Item ω τ)
  current : κ → Option (Item ω τ)
  queueFlags : κ → QueueFlags
  pendingCancels : List (τ × ω)
  sem : τ → Bool
  pc : τ → Pc ω κ
  delayQueue : ω → Option κ
  timeoutQ : ω → Bool
  inflight : Option (ω × Bool)

inductive Event (τ : Type)
  | returned (t : τ) (value : ℤ)
  deriving DecidableEq

/-- `here` says that the call comes from the CPU that announces. -/
inductive Action (ω τ κ : Type)
  | start (q : κ)
  | drain (t : τ) (q : κ) (plug : Bool)
  | unplug (t : τ) (q : κ)
  | submit (t : τ) (caller : Option κ) (queue : Option κ) (w : ω)
  | cancel (t : τ) (w : ω)
  | cancelSync (t : τ) (w : ω)
  | flush (t : τ) (w : ω)
  | schedule (t : τ) (caller : Option κ) (q : κ) (w : ω) (delay : Delay)
  | reschedule (t : τ) (caller : Option κ) (here : Bool) (q : κ) (w : ω) (delay : Delay)
  | cancelDelayable (t : τ) (here : Bool) (w : ω)
  | cancelDelayableSync (t : τ) (here : Bool) (w : ω)
  | flushDelayable (t : τ) (caller : Option κ) (here : Bool) (w : ω)
  | queueThread (q : κ)
  | expire (w : ω)
  | workTimeout
  | handlerReturn
  | advance (t : τ)

def insertAfter {α : Type} [DecidableEq α] (prev node : α) : List α → List α
  | [] => []
  | x :: l => if x = prev then x :: node :: l else x :: insertAfter prev node l

variable {ω τ κ : Type}

namespace State

def init : State ω τ κ where
  flags _ := .zero
  queue _ := none
  pending _ := []
  current _ := none
  queueFlags _ := .zero
  pendingCancels := []
  sem _ := false
  pc _ := .outside
  delayQueue _ := none
  timeoutQ _ := false
  inflight := none

variable (s : State ω τ κ)

def workBusyGetLocked (w : ω) : ℕ := (s.flags (.work w)).bits

variable [DecidableEq ω] [DecidableEq τ] [DecidableEq κ]

def setFlags (x : Item ω τ) (f : WorkFlags) : State ω τ κ :=
  { s with flags := update s.flags x f }

def setPending (q : κ) (l : List (Item ω τ)) : State ω τ κ :=
  { s with pending := update s.pending q l }

def setPc (t : τ) (pc : Pc ω κ) : State ω τ κ :=
  { s with pc := update s.pc t pc }

def queueSubmitLocked (caller : Option κ) (x : Item ω τ) : Option κ → State ω τ κ × ℤ
  | none => (s, -einval)
  | some q =>
    let chained := decide (caller = some q)
    let f := s.queueFlags q
    if !f.started then (s, -enodev)
    else if f.drain && !chained then (s, -ebusy)
    else if f.plugged && !f.drain then (s, -ebusy)
    else (s.setPending q (s.pending q ++ [x]), 1)

def submitToQueueLocked (caller : Option κ) (w : ω) (queue : Option κ) : State ω τ κ × ℤ :=
  let f := s.flags (.work w)
  if f.canceling then (s, -ebusy)
  else if !f.queued then
    -- an item that runs goes to the queue that runs it
    let queue := if f.running then s.queue w else queue.or (s.queue w)
    let r := s.queueSubmitLocked caller (.work w) queue
    if r.2 < 0 then r
    else
      ({ r.1.setFlags (.work w) { f with queued := true } with
          queue := update r.1.queue w queue },
        if f.running then 2 else 1)
  else (s, 0)

def queueRemoveLocked (w : ω) : State ω τ κ :=
  let f := s.flags (.work w)
  if f.queued then
    let s := s.setFlags (.work w) { f with queued := false }
    match s.queue w with
    | some q => s.setPending q ((s.pending q).erase (.work w))
    | none => s
  else s

def cancelAsyncLocked (w : ω) : State ω τ κ × ℕ :=
  let s := if (s.flags (.work w)).canceling then s else s.queueRemoveLocked w
  if s.workBusyGetLocked w ≠ 0 then
    let s := s.setFlags (.work w) { s.flags (.work w) with canceling := true }
    (s, s.workBusyGetLocked w)
  else (s, 0)

def cancelSyncLocked (t : τ) (w : ω) : State ω τ κ × Bool :=
  if (s.flags (.work w)).canceling then
    ({ s with
        sem := update s.sem t false
        pendingCancels := s.pendingCancels ++ [(t, w)] }, true)
  else (s, false)

def queueFlusherLocked (q : κ) (w : ω) (t : τ) : State ω τ κ :=
  let s := { s.setFlags (.flusher t) { WorkFlags.zero with flushing := true } with
    sem := update s.sem t false }
  if (s.flags (.work w)).queued then
    s.setPending q (insertAfter (.work w) (.flusher t) (s.pending q))
  else s.setPending q (.flusher t :: s.pending q)

def workFlushLocked (w : ω) (t : τ) : State ω τ κ × Bool :=
  let f := s.flags (.work w)
  if f.queued || f.running then
    match s.queue w with
    | some q => (s.queueFlusherLocked q w t, true)
    | none => (s, true)
  else (s, false)

/-- Give the lock back, and take the semaphore if there is something to wait for. -/
def waitIf (t : τ) (pc : Pc ω κ) (ret : ℤ) (r : State ω τ κ × Bool) :
    State ω τ κ × List (Event τ) :=
  if r.2 then (r.1.setPc t pc, []) else (r.1.setPc t .outside, [.returned t ret])

def finalizeFlushLocked : Item ω τ → State ω τ κ
  | .flusher t =>
    { s.setFlags (.flusher t) { s.flags (.flusher t) with flushing := false } with
      sem := update s.sem t true }
  | .work w => s.setFlags (.work w) { s.flags (.work w) with flushing := false }

/-- Only the first record of the item is removed. -/
def finalizeCancelLocked (x : Item ω τ) : State ω τ κ :=
  let s := s.setFlags x { s.flags x with canceling := false }
  match s.pendingCancels.find? fun r => .work r.2 = x with
  | some (t, w) =>
    { s with
      pendingCancels := s.pendingCancels.erase (t, w)
      sem := update s.sem t true }
  | none => s

/-- The first critical section of `work_queue_main`. -/
def takeWork (q : κ) : State ω τ κ :=
  match s.pending q with
  | x :: l =>
    { (s.setFlags x { s.flags x with running := true, queued := false }).setPending q l with
      current := update s.current q (some x)
      queueFlags := update s.queueFlags q { s.queueFlags q with busy := true } }
  | [] =>
    if (s.queueFlags q).drain then
      { s with
        queueFlags := update s.queueFlags q { s.queueFlags q with drain := false }
        pc t := if s.pc t = .draining q then .drained else s.pc t }
    else s

def finishWork (q : κ) (x : Item ω τ) : State ω τ κ :=
  let s := s.setFlags x { s.flags x with running := false }
  let s := if (s.flags x).flushing then s.finalizeFlushLocked x else s
  let s := if (s.flags x).canceling then s.finalizeCancelLocked x else s
  { s with
    current := update s.current q none
    queueFlags := update s.queueFlags q { s.queueFlags q with busy := false } }

def workQueueMain (q : κ) : State ω τ κ :=
  match s.current q with
  | none => s.takeWork q
  | some x => s.finishWork q x

def workQueueDrain (t : τ) (q : κ) (plug : Bool) : State ω τ κ × List (Event τ) :=
  let f := s.queueFlags q
  if f.busy || f.drain || plug || !(s.pending q).isEmpty then
    ({ s.setPc t (.draining q) with
        queueFlags := update s.queueFlags q
          { f with drain := true, plugged := f.plugged || plug } }, [])
  else (s, [.returned t 0])

def workQueueUnplug (t : τ) (q : κ) : State ω τ κ × List (Event τ) :=
  let f := s.queueFlags q
  ({ s with queueFlags := update s.queueFlags q { f with plugged := false } },
    [.returned t (if f.plugged then 0 else -ealready)])

def scheduleForQueueLocked (caller : Option κ) (q : κ) (w : ω) (delay : Delay) :
    State ω τ κ × ℤ :=
  if delay = .noWait then s.submitToQueueLocked caller w (some q)
  else
    ({ s.setFlags (.work w) { s.flags (.work w) with delayed := true } with
        delayQueue := update s.delayQueue w (some q)
        timeoutQ :=
          if delay = .forever then s.timeoutQ else update s.timeoutQ w true }, 1)

def zTryAbortTimeout (here : Bool) (w : ω) : State ω τ κ × ℤ :=
  if s.timeoutQ w then ({ s with timeoutQ := update s.timeoutQ w false }, 0)
  else if s.inflight.map Prod.fst = some w ∧ !here then (s, -eagain)
  else (s, -einval)

def unscheduled (t : τ) (caller : Option κ) (w : ω) (ret : Bool) :
    Rest κ → State ω τ κ × List (Event τ)
  | .cancel =>
    let r := s.cancelAsyncLocked w
    (r.1.setPc t .outside, [.returned t r.2])
  | .cancelSync => waitIf t (.cancelling w) 1 ((s.cancelAsyncLocked w).1.cancelSyncLocked t w)
  | .reschedule q delay =>
    let r := s.scheduleForQueueLocked caller q w delay
    (r.1.setPc t .outside, [.returned t r.2])
  | .flush =>
    let s := if ret then (s.submitToQueueLocked caller w (s.delayQueue w)).1 else s
    waitIf t .flushing 0 (s.workFlushLocked w t)

/-- The loop of `unschedule_locked`, with the lock dropped at each turn. -/
def unscheduleLoop (t : τ) (caller : Option κ) (here : Bool) (w : ω) (rest : Rest κ) :
    State ω τ κ × List (Event τ) :=
  let r := s.zTryAbortTimeout here w
  if r.2 = -eagain then (r.1.setPc t (.unscheduling w caller rest), [])
  else r.1.unscheduled t caller w true rest

def unscheduleLocked (t : τ) (caller : Option κ) (here : Bool) (w : ω) (rest : Rest κ) :
    State ω τ κ × List (Event τ) :=
  let f := s.flags (.work w)
  if f.delayed then
    (s.setFlags (.work w) { f with delayed := false }).unscheduleLoop t caller here w rest
  else s.unscheduled t caller w false rest

def workCancelSync (t : τ) (w : ω) : State ω τ κ × List (Event τ) :=
  if s.workBusyGetLocked w ≠ 0 then
    waitIf t (.cancelling w) 1 ((s.cancelAsyncLocked w).1.cancelSyncLocked t w)
  else (s, [.returned t 0])

def workScheduleForQueue (t : τ) (caller : Option κ) (q : κ) (w : ω) (delay : Delay) :
    State ω τ κ × List (Event τ) :=
  if WorkFlags.bits { s.flags (.work w) with running := false } = 0 then
    let r := s.scheduleForQueueLocked caller q w delay
    (r.1, [.returned t r.2])
  else (s, [.returned t 0])

/-- `k_work_cancel_delayable_sync` and `k_work_flush_delayable` return at once if the item is
idle. -/
def unlessIdle (t : τ) (caller : Option κ) (here : Bool) (w : ω) (rest : Rest κ) :
    State ω τ κ × List (Event τ) :=
  if s.workBusyGetLocked w ≠ 0 then s.unscheduleLocked t caller here w rest
  else (s, [.returned t 0])

/-- The critical section of the timeout handler `work_timeout`. -/
def workTimeout (w : ω) : State ω τ κ :=
  let f := s.flags (.work w)
  let s :=
    if f.delayed then
      ((s.setFlags (.work w) { f with delayed := false }).submitToQueueLocked none w
        (s.delayQueue w)).1
    else s
  { s with inflight := some (w, true) }

def advance (t : τ) : Option (State ω τ κ × List (Event τ)) :=
  match s.pc t with
  | .outside | .draining _ => none
  | .drained => some (s.setPc t .outside, [.returned t 1])
  | .flushing | .cancelling _ =>
    if s.sem t then
      some ({ s.setPc t .outside with sem := update s.sem t false }, [.returned t 1])
    else none
  | .unscheduling w caller rest => some (s.unscheduleLoop t caller false w rest)

def calls (t : τ) (r : State ω τ κ × List (Event τ)) : Option (State ω τ κ × List (Event τ)) :=
  if s.pc t = .outside then some r else none

def step (delayable : ω → Bool) : Action ω τ κ → Option (State ω τ κ × List (Event τ))
  | .start q =>
    if !(s.queueFlags q).started then
      some ({ s.setPending q [] with
        queueFlags := update s.queueFlags q { QueueFlags.zero with started := true } }, [])
    else none
  | .drain t q plug => s.calls t (s.workQueueDrain t q plug)
  | .unplug t q => s.calls t (s.workQueueUnplug t q)
  | .submit t caller queue w =>
    let r := s.submitToQueueLocked caller w queue
    s.calls t (r.1, [.returned t r.2])
  | .cancel t w =>
    let r := s.cancelAsyncLocked w
    if delayable w then none else s.calls t (r.1, [.returned t r.2])
  | .cancelSync t w => if delayable w then none else s.calls t (s.workCancelSync t w)
  | .flush t w =>
    if delayable w then none else s.calls t (waitIf t .flushing 0 (s.workFlushLocked w t))
  | .schedule t caller q w delay =>
    if delayable w then s.calls t (s.workScheduleForQueue t caller q w delay) else none
  | .reschedule t caller here q w delay =>
    if delayable w then s.calls t (s.unscheduleLocked t caller here w (.reschedule q delay))
    else none
  | .cancelDelayable t here w =>
    if delayable w then s.calls t (s.unscheduleLocked t none here w .cancel) else none
  | .cancelDelayableSync t here w =>
    if delayable w then s.calls t (s.unlessIdle t none here w .cancelSync) else none
  | .flushDelayable t caller here w =>
    if delayable w then s.calls t (s.unlessIdle t caller here w .flush) else none
  | .queueThread q => if (s.queueFlags q).started then some (s.workQueueMain q, []) else none
  | .expire w =>
    if s.timeoutQ w ∧ s.inflight = none then
      some ({ s with
        timeoutQ := update s.timeoutQ w false, inflight := some (w, false) }, [])
    else none
  | .workTimeout =>
    match s.inflight with
    | some (w, false) => some (s.workTimeout w, [])
    | _ => none
  | .handlerReturn =>
    match s.inflight with
    | some (_, true) => some ({ s with inflight := none }, [])
    | _ => none
  | .advance t => s.advance t

end State

variable [DecidableEq ω] [DecidableEq τ] [DecidableEq κ]

def workQueues (delayable : ω → Bool) : System (State ω τ κ) (Action ω τ κ) (Event τ) where
  init := .init
  step s := s.step delayable

end ZephyrRtos.Work
