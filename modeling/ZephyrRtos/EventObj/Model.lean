import ZephyrRtos.Lib.Run
import ZephyrRtos.Sched.WaitQ

/-! `kernel/events.c`: event objects. A post holds the event's lock from before its walk over the
waiters until it has stashed what they have left; the walk itself is one step under the scheduler's
lock, and a timeout can come in before the stash. -/

namespace ZephyrRtos.EventObj

open Function Lib Sched

abbrev Bits := BitVec 32

/-- `K_EVENT_WAIT_ALL`, `K_EVENT_OPTION_RESET` and `K_EVENT_OPTION_CLEAR`. -/
structure Options where
  all : Bool
  reset : Bool
  clear : Bool
  deriving DecidableEq

inductive Wait
  | wait (reset : Bool)
  | waitAll (reset : Bool)
  | waitSafe (reset : Bool)
  | waitAllSafe (reset : Bool)

def Wait.options : Wait → Options
  | .wait reset => ⟨false, reset, false⟩
  | .waitAll reset => ⟨true, reset, false⟩
  | .waitSafe reset => ⟨false, reset, true⟩
  | .waitAllSafe reset => ⟨true, reset, true⟩

inductive Post
  | post (events : Bits)
  | set (events : Bits)
  | setMasked (events mask : Bits)
  | clear (events : Bits)

def Post.args : Post → Bits × Bits
  | .post events => (events, events)
  | .set events => (events, ~~~0)
  | .setMasked events mask => (events, mask)
  | .clear events => (0, events)

def areWaitConditionsMet (desired current : Bits) (all : Bool) : Bits :=
  let matched := current &&& desired
  if all ∧ matched ≠ desired then 0 else matched

/-- `struct event_walk_data`, with the threads that a walk over a tree cannot wake yet. -/
structure WalkData (τ : Type) where
  head : List τ
  events : Bits
  clearEvents : Bits

structure Holder (τ : Type) where
  thread : τ
  events : Bits
  clearEvents : Bits
  previous : Bits

/-- `waiting` says that a thread is in `z_pend_curr`, `lock` is the post that has the event's
lock. -/
structure State (τ : Type) where
  events : Bits
  sched : WaitQs Unit τ
  threadEvents : τ → Bits
  eventOptions : τ → Options
  waiting : τ → Bool
  lock : Option (Holder τ)

inductive Event (τ : Type)
  | posted (t : τ) (events mask : Bits)
  | woken (t : τ) (posted bits : Bits) (clear : Bool)
  | stashed (t : τ) (value : Bits)
  | polled (t : τ) (desired : Bits) (options : Options) (value : Bits)
  | waits (t : τ) (desired : Bits) (options : Options)
  | timedOut (t : τ)
  | returned (t : τ) (value : Bits)
  deriving DecidableEq

inductive Action (τ : Type)
  | post (t : τ) (call : Post)
  | wait (t : τ) (call : Wait) (events : Bits) (timeout : KTimeout)
  | advance (t : τ)
  | expire (t : τ)
  | timeout (t : τ)

variable {τ : Type}

namespace State

def init (prio : τ → ℤ) (threadEvents : τ → Bits) (eventOptions : τ → Options) : State τ where
  events := 0
  sched := .init prio
  threadEvents
  eventOptions
  waiting _ := false
  lock := none

/-- What a waiter would get if the event had the bits `current`. -/
def met (s : State τ) (current : Bits) (t : τ) : Bits :=
  areWaitConditionsMet (s.threadEvents t) current (s.eventOptions t).all

variable [DecidableEq τ]

def wakeThread (s : State τ) (t : τ) : State τ :=
  { s with sched := (s.sched.threadReturnValueSet t 0).unpendThreadNoTimeout t }

/-- Without `CONFIG_WAITQ_SCALABLE` the thread is woken here. -/
def eventWalkOp (scalable : Bool) (r : State τ × WalkData τ) (t : τ) : State τ × WalkData τ :=
  let (s, data) := r
  let matched := s.met data.events t
  if matched ≠ 0 then
    let data :=
      if (s.eventOptions t).clear then { data with clearEvents := data.clearEvents ||| matched }
      else data
    let s := { s with
      threadEvents := update s.threadEvents t matched
      sched := s.sched.tryAbortThreadTimeout t }
    if scalable then (s, { data with head := t :: data.head }) else (s.wakeThread t, data)
  else (s, data)

def eventPostWalkOp (r : State τ × WalkData τ) : State τ × WalkData τ :=
  (r.2.head.foldl wakeThread r.1, r.2)

def waitqWalk (scalable : Bool) (s : State τ) (data : WalkData τ) : State τ × WalkData τ :=
  let r := (s.sched.waitq ()).foldl (eventWalkOp scalable) (s, data)
  if scalable then eventPostWalkOp r else r

def postInternal (scalable : Bool) (s : State τ) (t : τ) (args : Bits × Bits) :
    State τ × List (Event τ) :=
  let (events, mask) := args
  let previous := s.events &&& mask
  let posted := (s.events &&& ~~~mask) ||| (events &&& mask)
  let (s', data) := s.waitqWalk scalable { head := [], events := posted, clearEvents := 0 }
  ({ s' with lock := some ⟨t, data.events, data.clearEvents, previous⟩ },
    .posted t events mask ::
      ((s.sched.waitq ()).filter fun u => s.met posted u ≠ 0).map fun u =>
        .woken u posted (s.met posted u) (s.eventOptions u).clear)

def stash (s : State τ) (holder : Holder τ) : State τ × List (Event τ) :=
  ({ s with events := holder.events &&& ~~~holder.clearEvents, lock := none },
    [.stashed holder.thread holder.previous])

def waitInternal (s : State τ) (t : τ) (events : Bits) (options : Options) (timeout : KTimeout) :
    State τ × List (Event τ) :=
  if events = 0 then (s, [.polled t 0 options 0])
  else
    let s := if options.reset then { s with events := 0 } else s
    let rv := areWaitConditionsMet events s.events options.all
    if rv ≠ 0 then
      (if options.clear then { s with events := s.events &&& ~~~rv } else s,
        [.polled t events options rv])
    else if timeout = .noWait then (s, [.polled t events options 0])
    else
      ({ s with
          threadEvents := update s.threadEvents t events
          eventOptions := update s.eventOptions t options
          sched := s.sched.pendLocked t () timeout
          waiting := update s.waiting t true }, [.waits t events options])

def advance (s : State τ) (t : τ) : Option (State τ × List (Event τ)) :=
  if s.waiting t then
    if s.sched.pendedOn t = none then
      some ({ s with waiting := update s.waiting t false },
        [.returned t (if s.sched.swapRetval t = 0 then s.threadEvents t else 0)])
    else none
  else
    match s.lock with
    | some holder => if holder.thread = t then some (s.stash holder) else none
    | none => none

def calls (s : State τ) (t : τ) (r : State τ × List (Event τ)) :
    Option (State τ × List (Event τ)) :=
  if s.waiting t = false ∧ s.lock.isNone then some r else none

def step (scalable : Bool) (s : State τ) : Action τ → Option (State τ × List (Event τ))
  | .post t call => s.calls t (s.postInternal scalable t call.args)
  | .wait t call events timeout => s.calls t (s.waitInternal t events call.options timeout)
  | .advance t => s.advance t
  | .expire t => (s.sched.expire t).map fun sched => ({ s with sched }, [])
  | .timeout t => (s.sched.zThreadTimeout t).map fun sched =>
    ({ s with sched }, if s.sched.pendedOn t = none then [] else [.timedOut t])

end State

variable [DecidableEq τ]

def eventObj (scalable : Bool) (prio : τ → ℤ) (threadEvents : τ → Bits)
    (eventOptions : τ → Options) : System (State τ) (Action τ) (Event τ) where
  init := .init prio threadEvents eventOptions
  step := State.step scalable

end ZephyrRtos.EventObj
