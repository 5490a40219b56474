import ZephyrRtos.Lib.Run
import ZephyrRtos.Sched.WaitQ

/-! `kernel/queue.c`. Every call is one section under the lock of the queue, but for a get that has
to wait, which returns later. -/

namespace ZephyrRtos.Queue

open Function Lib Sched

/-- A node of `data_q`: an item that is linked through its first word, or a `struct alloc_node` at
the address `a`. -/
inductive Node (ι : Type)
  | item (data : ι)
  | alloc (a : ℕ) (data : ι)
  deriving DecidableEq

variable {ι τ : Type}

def Node.peek : Node ι → ι
  | .item data => data
  | .alloc _ data => data

def Node.frees : Node ι → Option ℕ
  | .item _ => none
  | .alloc a _ => some a

/-- `waiting` says that a thread is in `z_pend_curr`, `nextNode` is the next address that
`z_thread_malloc` returns. -/
structure State (ι τ : Type) where
  dataQ : List (Node ι)
  sched : WaitQs Unit τ
  swapData : τ → Option ι
  waiting : τ → Bool
  nextNode : ℕ

inductive Event (ι τ : Type)
  | handed (t : τ) (data : ι)
  | queued (i : ℕ) (data : ι)
  | got (t : τ) (data : ι)
  | removed (data : ι)
  | returned (t : τ) (data : Option ι)
  | allocated (a : ℕ)
  | freed (a : ℕ)
  deriving DecidableEq

inductive Action (ι τ : Type)
  | append (data : ι)
  | prepend (data : ι)
  | insert (prev data : ι)
  | allocAppend (data : ι) (memory : Bool)
  | allocPrepend (data : ι) (memory : Bool)
  | appendList (list : List ι)
  | uniqueAppend (data : ι)
  | remove (data : ι)
  | get (t : τ) (timeout : KTimeout)
  | cancelWait
  | advance (t : τ)
  | expire (t : τ)
  | timeout (t : τ)

namespace State

variable [DecidableEq ι] [DecidableEq τ] (s : State ι τ)

def schedWake (t : τ) (data : Option ι) : State ι τ :=
  { s with sched := s.sched.wake t 0, swapData := update s.swapData t data }

/-- `queue_insert` at the place `i` of the list. An allocation has its outcome in `alloc`. -/
def queueInsert (i : ℕ) (data : ι) (alloc : Option Bool) : State ι τ × List (Event ι τ) :=
  match s.sched.waitq () with
  | t :: _ => (s.schedWake t (some data), [.handed t data])
  | [] =>
    match alloc with
    | some false => (s, [])
    | some true =>
      ({ s with dataQ := s.dataQ.insertIdx i (.alloc s.nextNode data), nextNode := s.nextNode + 1 },
        [.allocated s.nextNode, .queued i data])
    | none => ({ s with dataQ := s.dataQ.insertIdx i (.item data) }, [.queued i data])

/-- The loop of `k_queue_append_list`, with the rest of the list. -/
def wakeList : State ι τ → List ι → State ι τ × List ι × List (Event ι τ)
  | s, [] => (s, [], [])
  | s, data :: list =>
    match s.sched.waitq () with
    | [] => (s, data :: list, [])
    | t :: _ =>
      let r := wakeList (s.schedWake t (some data)) list
      (r.1, r.2.1, .handed t data :: r.2.2)

def appendItems : State ι τ → List ι → State ι τ × List (Event ι τ)
  | s, [] => (s, [])
  | s, data :: list =>
    let r := appendItems { s with dataQ := s.dataQ.insertIdx s.dataQ.length (.item data) } list
    (r.1, .queued s.dataQ.length data :: r.2)

/-- Also `k_queue_merge_slist`. -/
def kQueueAppendList (list : List ι) : State ι τ × List (Event ι τ) :=
  let r := s.wakeList list
  let r' := r.1.appendItems r.2.1
  (r'.1, r.2.2 ++ r'.2)

def kQueueUniqueAppend (data : ι) : (State ι τ × List (Event ι τ)) × Bool :=
  if .item data ∈ s.dataQ then ((s, []), false)
  else (s.queueInsert s.dataQ.length data none, true)

def kQueueRemove (data : ι) : State ι τ × List (Event ι τ) :=
  match s.dataQ.find? (·.peek = data) with
  | none => (s, [])
  | some node => ({ s with dataQ := s.dataQ.eraseP (·.peek = data) },
      .removed data :: (node.frees.map .freed).toList)

def kQueueGet (t : τ) (timeout : KTimeout) : State ι τ × List (Event ι τ) :=
  match s.dataQ with
  | node :: nodes =>
    ({ s with dataQ := nodes }, .got t node.peek :: (node.frees.map .freed).toList)
  | [] =>
    if timeout = .noWait then (s, [.returned t none])
    else
      ({ s with
        sched := s.sched.pendLocked t () timeout
        waiting := update s.waiting t true }, [])

def kQueueCancelWait : State ι τ :=
  match s.sched.waitq () with
  | t :: _ => s.schedWake t none
  | [] => s

def getReturns (t : τ) : State ι τ × List (Event ι τ) :=
  ({ s with waiting := update s.waiting t false },
    [.returned t (if s.sched.swapRetval t ≠ 0 then none else s.swapData t)])

/-- An item that is linked through its first word can be linked once, and `k_queue_insert` takes an
item that is linked in this way. -/
def step : Action ι τ → Option (State ι τ × List (Event ι τ))
  | .append data =>
    if .item data ∈ s.dataQ then none else some (s.queueInsert s.dataQ.length data none)
  | .prepend data => if .item data ∈ s.dataQ then none else some (s.queueInsert 0 data none)
  | .insert prev data =>
    if .item data ∈ s.dataQ ∨ .item prev ∉ s.dataQ then none
    else some (s.queueInsert (s.dataQ.idxOf (.item prev) + 1) data none)
  | .allocAppend data memory => some (s.queueInsert s.dataQ.length data (some memory))
  | .allocPrepend data memory => some (s.queueInsert 0 data (some memory))
  | .appendList list =>
    if list.Nodup ∧ ∀ data ∈ list, .item data ∉ s.dataQ then
      some (s.kQueueAppendList list)
    else none
  | .uniqueAppend data => some (s.kQueueUniqueAppend data).1
  | .remove data => some (s.kQueueRemove data)
  | .get t timeout => if s.waiting t then none else some (s.kQueueGet t timeout)
  | .cancelWait => some (s.kQueueCancelWait, [])
  | .advance t =>
    if s.waiting t ∧ s.sched.pendedOn t = none then some (s.getReturns t) else none
  | .expire t => (s.sched.expire t).map fun sched => ({ s with sched }, [])
  | .timeout t => (s.sched.zThreadTimeout t).map fun sched => ({ s with sched }, [])

end State

def queue [DecidableEq ι] [DecidableEq τ] (prio : τ → ℤ) :
    System (State ι τ) (Action ι τ) (Event ι τ) :=
  ⟨⟨[], .init prio, fun _ => none, fun _ => false, 0⟩, State.step⟩

end ZephyrRtos.Queue
