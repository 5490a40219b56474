import ZephyrRtos.Lib.Deque
import ZephyrRtos.Lib.Memory
import ZephyrRtos.Lib.Run
import ZephyrRtos.Sched.WaitQ

/-! `kernel/msg_q.c`: message queues. A call is one step under the queue's lock, but for a get,
which takes the scheduler's lock only after it has taken its message, and a purge, which takes it
for every waiter: a timeout can come in there. -/

namespace ZephyrRtos.Msgq

open Function Lib Sched

structure Config where
  bufferStart : ℕ
  msgSize : ℕ
  maxMsgs : ℕ

def Config.bufferEnd (cfg : Config) : ℕ := cfg.bufferStart + cfg.maxMsgs * cfg.msgSize

abbrev Msg (cfg : Config) := Fin cfg.msgSize → UInt8

def enomsg : ℤ := 35

inductive Section (cfg : Config)
  | handOff (data : Msg cfg)
  | purge

/-- Readers and writers wait in the same queue. -/
inductive Pc
  | outside
  | inside
  | put
  | get
  deriving DecidableEq

/-- `data` is the buffer of a call that waits, which `swap_data` points to. -/
structure State (cfg : Config) (τ : Type) where
  mem : Memory
  readPtr : ℕ
  writePtr : ℕ
  usedMsgs : ℕ
  sched : WaitQs Unit τ
  data : τ → Msg cfg
  pc : τ → Pc
  lock : Option (τ × Section cfg)

inductive Call (cfg : Config)
  | put (data : Msg cfg) (atBack : Bool)
  | get
  deriving DecidableEq

inductive Event (cfg : Config) (τ : Type)
  | called (thread : τ) (call : Call cfg)
  | accepted (thread : τ) (data : Msg cfg) (atBack : Bool)
  | received (thread : τ) (data : Msg cfg)
  | peeked (thread : τ) (idx : ℕ) (data : Option (Msg cfg))
  | purged (thread : τ)
  | returned (thread : τ) (value : ℤ) (data : Msg cfg)
  deriving DecidableEq

inductive Action (cfg : Config) (τ : Type)
  | put (thread : τ) (data : Msg cfg) (timeout : KTimeout)
  | putFront (thread : τ) (data : Msg cfg)
  | get (thread : τ) (data : Msg cfg) (timeout : KTimeout)
  | peek (thread : τ)
  | peekAt (thread : τ) (idx : ℕ)
  | purge (thread : τ)
  | advance (thread : τ)
  | expire (thread : τ)
  | timeout (thread : τ)

variable {cfg : Config} {τ : Type}

namespace State

variable (s : State cfg τ)

def init (prio : τ → ℤ) (mem : Memory) (data : τ → Msg cfg) : State cfg τ where
  mem
  readPtr := cfg.bufferStart
  writePtr := cfg.bufferStart
  usedMsgs := 0
  sched := .init prio
  data
  pc _ := .outside
  lock := none

variable (cfg) in
def nextSlot (ptr : ℕ) : ℕ :=
  if ptr + cfg.msgSize = cfg.bufferEnd then cfg.bufferStart else ptr + cfg.msgSize

variable (cfg) in
def slots (mem : Memory) : ℕ → ℕ → List (Msg cfg)
  | 0, _ => []
  | n + 1, ptr => mem.bytes ptr cfg.msgSize :: slots mem n (nextSlot cfg ptr)

def ring : List (Msg cfg) := slots cfg s.mem s.usedMsgs s.readPtr

def writeBack (data : Msg cfg) : State cfg τ :=
  { s with
    mem := s.mem.setBytes s.writePtr data
    writePtr := nextSlot cfg s.writePtr
    usedMsgs := s.usedMsgs + 1 }

def writeFront (data : Msg cfg) : State cfg τ :=
  let readPtr := (if s.readPtr = cfg.bufferStart then cfg.bufferEnd else s.readPtr) - cfg.msgSize
  { s with
    mem := s.mem.setBytes readPtr data
    readPtr
    usedMsgs := s.usedMsgs + 1 }

variable [DecidableEq τ]

def pendCurr (thread : τ) (pc : Pc) (data : Msg cfg) (timeout : KTimeout) : State cfg τ :=
  { s with
    sched := s.sched.pendLocked thread () timeout
    data := update s.data thread data
    pc := update s.pc thread pc }

def leave (thread : τ) : State cfg τ :=
  { s with lock := none, pc := update s.pc thread .outside }

def putMsgInQueue (thread : τ) (data : Msg cfg) (timeout : KTimeout) (putAtBack : Bool) :
    State cfg τ × List (Event cfg τ) :=
  let call := .called thread (.put data putAtBack)
  if s.usedMsgs < cfg.maxMsgs then
    match s.sched.zUnpendFirstThreadLocked () with
    | (some pendingThread, sched) =>
      ({ s with
          sched := sched.threadReturnValueSet pendingThread 0
          data := update s.data pendingThread data },
        [call, .accepted thread data putAtBack, .received pendingThread data,
          .returned thread 0 data])
    | (none, _) =>
      (if putAtBack then s.writeBack data else s.writeFront data,
        [call, .accepted thread data putAtBack, .returned thread 0 data])
  else if timeout = .noWait then
    (s, [call, .returned thread (-enomsg) data])
  else
    (s.pendCurr thread .put data timeout, [call])

def get (thread : τ) (data : Msg cfg) (timeout : KTimeout) : State cfg τ × List (Event cfg τ) :=
  if 0 < s.usedMsgs then
    let message := s.mem.bytes s.readPtr cfg.msgSize
    ({ s with
        readPtr := nextSlot cfg s.readPtr
        usedMsgs := s.usedMsgs - 1
        pc := update s.pc thread .inside
        lock := some (thread, .handOff message) },
      [.called thread .get, .received thread message])
  else if timeout = .noWait then
    (s, [.called thread .get, .returned thread (-enomsg) data])
  else
    (s.pendCurr thread .get data timeout, [.called thread .get])

def handOff (thread : τ) (data : Msg cfg) : State cfg τ × List (Event cfg τ) :=
  match s.sched.zUnpendFirstThreadLocked () with
  | (some pendingThread, sched) =>
    (({ s with sched := sched.threadReturnValueSet pendingThread 0 }.writeBack
        (s.data pendingThread)).leave thread,
      [.accepted pendingThread (s.data pendingThread) true, .returned thread 0 data])
  | (none, _) => (s.leave thread, [.returned thread 0 data])

def peek (thread : τ) : List (Event cfg τ) :=
  if 0 < s.usedMsgs then
    [.peeked thread 0 (some (s.mem.bytes s.readPtr cfg.msgSize))]
  else [.peeked thread 0 none]

/-- `bytes_to_end` and `byte_offset` have 32 bits whatever the size of a pointer. -/
def peekAddr (idx : ℕ) : ℕ :=
  let bytesToEnd := (cfg.bufferEnd - s.readPtr) % 2 ^ 32
  let byteOffset := (idx * cfg.msgSize) % 2 ^ 32
  if bytesToEnd ≤ byteOffset then cfg.bufferStart + (byteOffset - bytesToEnd)
  else s.readPtr + byteOffset

def peekAt (thread : τ) (idx : ℕ) : List (Event cfg τ) :=
  if idx < s.usedMsgs then
    [.peeked thread idx (some (s.mem.bytes (s.peekAddr idx) cfg.msgSize))]
  else [.peeked thread idx none]

/-- One turn of the loop of `k_msgq_purge`, or what is after it. -/
def purge (thread : τ) : State cfg τ × List (Event cfg τ) :=
  match s.sched.zUnpendFirstThreadLocked () with
  | (some pendingThread, sched) =>
    ({ s with sched := sched.threadReturnValueSet pendingThread (-enomsg) }, [])
  | (none, _) =>
    ({ s with usedMsgs := 0, readPtr := s.writePtr }.leave thread, [.purged thread])

def advance (thread : τ) : Option (State cfg τ × List (Event cfg τ)) :=
  match s.pc thread with
  | .outside => none
  | .inside =>
    match s.lock with
    | some (holder, place) =>
      if holder = thread then
        match place with
        | .handOff data => some (s.handOff thread data)
        | .purge => some (s.purge thread)
      else none
    | none => none
  | .put | .get =>
    if s.sched.pendedOn thread = none then
      some ({ s with pc := update s.pc thread .outside },
        [.returned thread (s.sched.swapRetval thread) (s.data thread)])
    else none

def calls (thread : τ) (r : State cfg τ × List (Event cfg τ)) :
    Option (State cfg τ × List (Event cfg τ)) :=
  if s.pc thread = .outside ∧ s.lock.isNone then some r else none

def step : Action cfg τ → Option (State cfg τ × List (Event cfg τ))
  | .put thread data timeout => s.calls thread (s.putMsgInQueue thread data timeout true)
  | .putFront thread data => s.calls thread (s.putMsgInQueue thread data .noWait false)
  | .get thread data timeout => s.calls thread (s.get thread data timeout)
  | .peek thread => s.calls thread (s, s.peek thread)
  | .peekAt thread idx => s.calls thread (s, s.peekAt thread idx)
  | .purge thread =>
    s.calls thread ({ s with
      pc := update s.pc thread .inside, lock := some (thread, .purge) }, [])
  | .advance thread => s.advance thread
  | .expire thread => (s.sched.expire thread).map fun sched => ({ s with sched }, [])
  | .timeout thread => (s.sched.zThreadTimeout thread).map fun sched => ({ s with sched }, [])

end State

variable [DecidableEq τ]

def msgq (cfg : Config) (prio : τ → ℤ) (mem : Memory) (data : τ → Msg cfg) :
    System (State cfg τ) (Action cfg τ) (Event cfg τ) where
  init := .init prio mem data
  step s := s.step

end ZephyrRtos.Msgq
