import ZephyrRtos.Lib.Run
import ZephyrRtos.Sched.WaitQ
import ZephyrRtos.Sys.RingBuf

/-! `kernel/pipe.c`: pipes that are open and not being reset. A step is what the holder of the
pipe's lock does up to the next point where a timeout, which only needs the scheduler's lock, can
come in. -/

namespace ZephyrRtos.Pipe

open Function Lib Sched Sys

/-- `idxBits` is the width of `ring_buf_idx_t`, `coherence` is `CONFIG_KERNEL_COHERENCE`. -/
structure Config where
  idxBits : ℕ
  coherence : Bool

inductive Queue
  | data
  | space
  deriving DecidableEq

inductive Kind
  | write
  | read
  deriving DecidableEq

def Kind.queue : Kind → Queue
  | .write => .space
  | .read => .data

/-- The locals of a call: for a read these are its `pipe_buf_spec`. -/
structure Call where
  kind : Kind
  data : Memory
  len : ℕ
  used : ℕ
  timeLimit : KTimeout

inductive Section
  | top
  | wakeReaders
  | copy
  | copied
  | fill
  | wakeWriters
  | drain
  | waitFor

inductive Pc
  | outside
  | inside
  | waiting
  deriving DecidableEq

structure State (cfg : Config) (τ : Type) where
  buf : RingBuf cfg.idxBits
  waiting : ℕ
  sched : WaitQs Queue τ
  call : τ → Call
  pc : τ → Pc
  lock : Option (τ × Section)

/-- A call returns with what is in the part of its buffer that it has used. -/
inductive Event (τ : Type)
  | called (thread : τ) (kind : Kind) (len : ℕ)
  | accepted (thread : τ) (bytes : List UInt8)
  | delivered (thread : τ) (bytes : List UInt8)
  | timedOut (thread : τ)
  | returned (thread : τ) (value : ℤ) (bytes : List UInt8)
  deriving DecidableEq

/-- `late` says that the time limit of the call is over by now. -/
inductive Action (τ : Type)
  | call (thread : τ) (kind : Kind) (data : Memory) (len : ℕ) (timeout : KTimeout)
  | advance (thread : τ) (late : Bool)
  | expire (thread : τ)
  | timeout (thread : τ)

variable {cfg : Config} {τ : Type}

namespace Call

def rc (c : Call) : ℤ := int32 c.used

def bytes (c : Call) : List UInt8 := c.data.list 0 c.used

end Call

namespace State

variable (s : State cfg τ)

def init (prio : τ → ℤ) (buffer : Memory) (size : ℕ) (call : τ → Call) : State cfg τ where
  buf := .init buffer size
  waiting := 0
  sched := .init prio
  call
  pc _ := .outside
  lock := none

def pipeFull : Bool := s.buf.spaceGet = 0

def pipeEmpty : Bool := s.buf.isEmpty

variable [DecidableEq τ]

def stay (thread : τ) (place : Section) : State cfg τ :=
  { s with lock := some (thread, place) }

def enter (thread : τ) : State cfg τ :=
  { s with pc := update s.pc thread .inside, lock := some (thread, .top) }

def setCall (thread : τ) (call : Call) : State cfg τ :=
  { s with call := update s.call thread call }

def leave (thread : τ) : State cfg τ :=
  { s with lock := none, pc := update s.pc thread .outside }

def finish (thread : τ) (value : ℤ) : State cfg τ × List (Event τ) :=
  (s.leave thread, [.returned thread value (s.call thread).bytes])

/-- What a call returns when `wait_for` gave it `-EAGAIN`. -/
def giveUp (thread : τ) : ℤ :=
  if (s.call thread).used ≠ 0 then (s.call thread).rc else -eagain

def transfer (thread reader : τ) (n : ℕ) : State cfg τ :=
  let c := s.call thread
  let b := s.call reader
  (s.setCall thread { c with used := c.used + n }).setCall reader
    { b with data := b.data.paste b.used c.data c.used n, used := b.used + n }

/-- One turn of the loop of `copy_to_pending_readers`. Its `written` is counted in that of the
caller. -/
def copyToPendingReader (thread : τ) : State cfg τ × List (Event τ) :=
  match zPriqSimpleBest (s.sched.waitq .data) with
  | none => (s.stay thread .copied, [])
  | some reader =>
    let c := s.call thread
    let b := s.call reader
    let copySize := min (c.len - c.used) (b.len - b.used)
    let bytes := c.data.list c.used copySize
    let s := s.transfer thread reader copySize
    let events := [.accepted thread bytes, .delivered reader bytes]
    if b.used + copySize < b.len then (s.stay thread .copied, events)
    else
      let s := { s with sched := s.sched.wake reader 0 }
      if c.used + copySize < c.len then (s, events) else (s.stay thread .copied, events)

/-- `z_sched_wake` on a queue, and where the thread goes when there is nobody in it. -/
def wakeAll (thread : τ) (queue : Queue) (place : Section) : State cfg τ :=
  match s.sched.zUnpendFirstThreadLocked queue with
  | (some u, sched) => { s with sched := sched.threadReturnValueSet u 0 }
  | (none, _) => s.stay thread place

def moved (thread : τ) (buf : RingBuf cfg.idxBits) (data : Memory) (n : ℕ) : State cfg τ :=
  let c := s.call thread
  { s with buf }.setCall thread { c with data, used := c.used + n }

/-- What is after `ring_buf_put` and `ring_buf_get`. -/
def proceed (thread : τ) : State cfg τ × List (Event τ) :=
  if (s.call thread).used = (s.call thread).len then s.finish thread (s.call thread).rc
  else (s.stay thread .waitFor, [])

/-- The length that is left is cut to the 32 bits that the ring takes. -/
def fill (thread : τ) : State cfg τ × List (Event τ) :=
  let c := s.call thread
  let (buf, n) := s.buf.ringBufPut c.data c.used ((c.len - c.used) % 2 ^ 32)
  let (s, events) := (s.moved thread buf c.data n).proceed thread
  (s, .accepted thread (c.data.list c.used n) :: events)

def drain (thread : τ) : State cfg τ × List (Event τ) :=
  let c := s.call thread
  let (buf, data, n) := s.buf.ringBufGet c.data c.used ((c.len - c.used) % 2 ^ 32)
  let (s, events) := (s.moved thread buf data n).proceed thread
  (s, .delivered thread (data.list c.used n) :: events)

def timepointTimeout (timeLimit : KTimeout) (late : Bool) : KTimeout :=
  if timeLimit = .ticks ∧ late then .noWait else timeLimit

def pendCurr (thread : τ) (timeout : KTimeout) : State cfg τ :=
  { s with
    waiting := s.waiting + 1
    sched := s.sched.pendLocked thread (s.call thread).kind.queue timeout
    pc := update s.pc thread .waiting
    lock := none }

/-- `wait_for` up to the switch to another thread. -/
def waitFor (thread : τ) (late : Bool) : State cfg τ × List (Event τ) :=
  let timeout := timepointTimeout (s.call thread).timeLimit late
  if timeout = .noWait then
    let (s', events) := s.finish thread (s.giveUp thread)
    (s', .timedOut thread :: events)
  else (s.pendCurr thread timeout, [])

def top (thread : τ) : State cfg τ :=
  match (s.call thread).kind with
  | .write =>
    if s.pipeEmpty then
      if cfg.coherence then s.stay thread .wakeReaders
      else if s.waiting ≠ 0 then s.stay thread .copy
      else s.stay thread .fill
    else s.stay thread .fill
  | .read => if s.pipeFull then s.stay thread .wakeWriters else s.stay thread .drain

def inSection (thread : τ) (late : Bool) : Section → State cfg τ × List (Event τ)
  | .top => (s.top thread, [])
  | .wakeReaders => (s.wakeAll thread .data .fill, [])
  | .copy => s.copyToPendingReader thread
  | .copied =>
    if (s.call thread).len ≤ (s.call thread).used then s.finish thread (s.call thread).rc
    else (s.stay thread .fill, [])
  | .fill => s.fill thread
  | .wakeWriters => (s.wakeAll thread .space .drain, [])
  | .drain => s.drain thread
  | .waitFor => s.waitFor thread late

/-- `wait_for` after the switch back, with the lock taken again. -/
def resume (thread : τ) : State cfg τ × List (Event τ) :=
  let s := { s with waiting := s.waiting - 1 }
  let rc := s.sched.swapRetval thread
  if rc ≠ 0 then s.finish thread (if rc = -eagain then s.giveUp thread else rc)
  else (s.enter thread, [])

def advance (thread : τ) (late : Bool) : Option (State cfg τ × List (Event τ)) :=
  match s.pc thread with
  | .outside => none
  | .inside =>
    match s.lock with
    | some (holder, place) => if holder = thread then some (s.inSection thread late place) else none
    | none => none
  | .waiting =>
    if s.sched.pendedOn thread = none ∧ s.lock.isNone then some (s.resume thread) else none

def step : Action τ → Option (State cfg τ × List (Event τ))
  | .call thread kind data len timeout =>
    if s.pc thread = .outside ∧ s.lock.isNone then
      some ((s.setCall thread ⟨kind, data, len, 0, timeout⟩).enter thread,
        [.called thread kind len])
    else none
  | .advance thread late => s.advance thread late
  | .expire thread => (s.sched.expire thread).map fun sched => ({ s with sched }, [])
  | .timeout thread =>
    (s.sched.zThreadTimeout thread).map fun sched =>
      ({ s with sched }, if s.sched.isThreadPending thread then [.timedOut thread] else [])

end State

variable [DecidableEq τ]

def pipe (cfg : Config) (prio : τ → ℤ) (buffer : Memory) (size : ℕ) (call : τ → Call) :
    System (State cfg τ) (Action τ) (Event τ) where
  init := .init prio buffer size call
  step s := s.step

end ZephyrRtos.Pipe
