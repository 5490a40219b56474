import Mathlib.Data.Nat.Notation
import Mathlib.Logic.Function.Basic
import ZephyrRtos.Lib.Run

/-! `lib/os/mpsc_pbuf.c`: packets in a ring of words, put by any number of producers and claimed by
one consumer. A step is one section under the spinlock, or one access outside of it.

The packets are numbered in the order of their allocation (`stamp`, `next`); the code does not know
the numbers. -/

namespace ZephyrRtos.MpscPbuf

open Function Lib

/-- `size` is in words, and `getWlen` looks at the header but for its first two bits. -/
structure Config where
  size : ℕ
  overwrite : Bool
  getWlen : ℕ → ℕ

/-- A word, which may be a header: the first two bits and the others, which are `skip.len` in a skip
packet. -/
structure Word where
  valid : Bool
  busy : Bool
  data : ℕ
  deriving DecidableEq

structure Buffer where
  buf : ℕ → Word
  rdIdx : ℕ
  tmpRdIdx : ℕ
  wrIdx : ℕ
  tmpWrIdx : ℕ
  full : Bool
  stamp : ℕ → ℕ
  next : ℕ

variable (c : Config) (b : Buffer)

/-- Whether the space was calculated until the end of the buffer, and the space. -/
def freeSpace : Bool × ℕ :=
  if b.full then (false, 0)
  else if b.tmpWrIdx < b.rdIdx then (false, b.rdIdx - b.tmpWrIdx)
  else (true, c.size - b.tmpWrIdx)

def available : ℕ :=
  if b.full ∨ b.wrIdx < b.tmpRdIdx then c.size - b.tmpRdIdx else b.wrIdx - b.tmpRdIdx

def isValid (item : Word) : Bool := item.valid

def isInvalid (item : Word) : Bool := !item.valid && !item.busy

def sizePow2 : Prop := c.size ≠ 0 ∧ c.size &&& (c.size - 1) = 0

instance : Decidable (sizePow2 c) := inferInstanceAs (Decidable (_ ∧ _))

def idxInc (idx val : ℕ) : ℕ :=
  let i := idx + val
  if sizePow2 c then i &&& (c.size - 1) else if c.size ≤ i then i - c.size else i

def getSkip (item : Word) : ℕ := if item.busy && !item.valid then item.data else 0

def tmpWrIdxInc (wlen : ℕ) : Buffer :=
  let tmpWrIdx := idxInc c b.tmpWrIdx wlen
  { b with tmpWrIdx, full := b.full || tmpWrIdx = b.rdIdx }

def rdIdxInc (wlen : ℕ) : Buffer := { b with rdIdx := idxInc c b.rdIdx wlen, full := false }

def addSkipItem (wlen : ℕ) : Buffer :=
  let b := { b with buf := update b.buf b.tmpWrIdx ⟨false, true, wlen⟩ }
  let b := tmpWrIdxInc c b wlen
  { b with wrIdx := idxInc c b.wrIdx wlen }

/-- What `drop_item_locked` leaves and returns. -/
structure Drop where
  buffer : Buffer
  cont : Bool
  itemToDrop : Option ℕ
  tmpWrIdxShift : ℕ

def omitBusy (freeWlen rdWlen : ℕ) : Drop :=
  let b := if freeWlen ≠ 0 then addSkipItem c b freeWlen else b
  let b := { b with wrIdx := idxInc c b.wrIdx rdWlen }
  -- it was omitted before, and nothing is left to drop
  let again := b.rdIdx = b.tmpRdIdx
  let tmpRdIdx := if again then idxInc c b.tmpRdIdx rdWlen else b.tmpRdIdx
  ⟨{ b with tmpRdIdx, tmpWrIdx := tmpRdIdx, rdIdx := tmpRdIdx, full := true }, ¬again, none, 0⟩

/-- The oldest packet is dropped: with the free words before it, it is out of use until the
producer has told the user about it. -/
def dropOldest (freeWlen rdWlen : ℕ) : Drop :=
  let item := b.rdIdx
  let b := rdIdxInc c b rdWlen
  let b := { b with tmpRdIdx := b.rdIdx }
  let b :=
    if freeWlen ≠ 0 then { b with buf := update b.buf b.tmpWrIdx ⟨false, false, 0⟩ } else b
  let shift := rdWlen + freeWlen
  ⟨{ b with
      tmpWrIdx := idxInc c b.tmpWrIdx shift
      full := true
      buf := update b.buf item { b.buf item with valid := false } }, true, some item, shift⟩

def dropItemLocked (freeWlen : ℕ) : Drop :=
  let item := b.buf b.rdIdx
  let skipWlen := getSkip item
  if skipWlen ≠ 0 then
    let b := rdIdxInc c b skipWlen
    ⟨{ b with tmpRdIdx := b.rdIdx }, true, none, 0⟩
  else if ¬c.overwrite then ⟨b, false, none, 0⟩
  else
    let rdWlen := c.getWlen item.data
    if ¬isValid item then ⟨b, false, none, 0⟩
    else if item.busy then omitBusy c b freeWlen rdWlen
    else dropOldest c b freeWlen rdWlen

def postDropAction (prevTmpWrIdx tmpWrIdxShift : ℕ) : Buffer :=
  if idxInc c prevTmpWrIdx tmpWrIdxShift = b.tmpWrIdx then
    { b with tmpWrIdx := prevTmpWrIdx, full := false }
  else
    { b with
      buf := update b.buf prevTmpWrIdx ⟨false, true, tmpWrIdxShift⟩
      wrIdx := idxInc c b.wrIdx tmpWrIdxShift }

def store (buf : ℕ → Word) (ptr : ℕ) (ws : List Word) : ℕ → Word :=
  fun i => if ptr ≤ i then ws[i - ptr]?.getD (buf i) else buf i

def put (ws : List Word) : Buffer :=
  let b :=
    { b with
      buf := store b.buf b.tmpWrIdx ws
      stamp := update b.stamp b.tmpWrIdx b.next
      next := b.next + 1 }
  let b := tmpWrIdxInc c b ws.length
  { b with wrIdx := idxInc c b.wrIdx ws.length }

def reserve (wlen : ℕ) : Buffer :=
  let b :=
    { b with
      buf := update b.buf b.tmpWrIdx ⟨false, false, (b.buf b.tmpWrIdx).data⟩
      stamp := update b.stamp b.tmpWrIdx b.next
      next := b.next + 1 }
  tmpWrIdxInc c b wlen

/-- How a turn of a producer's loop ends. -/
inductive Turn
  | stored
  | again
  | failed
  | dropped (item shift tmpWrIdxVal : ℕ)

def dropTurn (freeWlen : ℕ) : Buffer × Turn :=
  let d := dropItemLocked c b freeWlen
  match d.itemToDrop with
  | some item => (d.buffer, .dropped item d.tmpWrIdxShift b.tmpWrIdx)
  | none => (d.buffer, if d.cont then .again else .failed)

/-- The turn of a loop that puts a packet of one word: this one knows no wrap, as any free space
will do. -/
def putWordTurn (item : Word) : Buffer × Turn :=
  let (_, freeWlen) := freeSpace c b
  if freeWlen ≠ 0 then (put c b [item], .stored) else dropTurn c b freeWlen

/-- The turn of a loop that needs `wlen` words, for which it has `placed`. -/
def turnOf (wlen : ℕ) (placed : Buffer) (wait : Bool) : Buffer × Turn :=
  let (wrap, freeWlen) := freeSpace c b
  if wlen ≤ freeWlen then (placed, .stored)
  else if wrap then (addSkipItem c b freeWlen, .again)
  else if wait then (b, .again)
  else dropTurn c b freeWlen

def putDataTurn (data : List Word) : Buffer × Turn := turnOf c b data.length (put c b data) false

def putWordExtTurn (item : Word) (data : List Word) : Buffer × Turn :=
  turnOf c b (item :: data).length (put c b (item :: data)) false

/-- With `wait`, the caller waits for a packet to be freed. -/
def allocTurn (wlen : ℕ) (wait : Bool) : Buffer × Turn := turnOf c b wlen (reserve c b wlen) wait

inductive Op
  | putWord (item : Word)
  | putWordExt (item : Word) (data : List Word)
  | putData (data : List Word)
  | alloc (wlen : ℕ) (wait : Bool)

def Op.packet : Op → Option (List Word)
  | .putWord item => some [item]
  | .putWordExt item data => some (item :: data)
  | .putData data => some data
  | .alloc .. => none

def Op.wlen : Op → ℕ
  | .putWord _ => 1
  | .putWordExt _ data => data.length + 1
  | .putData data => data.length
  | .alloc wlen _ => wlen

def Op.turn : Op → Buffer × Turn
  | .putWord item => putWordTurn c b item
  | .putWordExt item data => putWordExtTurn c b item data
  | .putData data => putDataTurn c b data
  | .alloc wlen wait => allocTurn c b wlen wait

/-- The header of a packet to put has its valid bit set and tells its length. -/
def PutOk (ws : List Word) : Prop :=
  ∃ h rest, ws = h :: rest ∧ h.valid = true ∧ h.busy = false ∧ c.getWlen h.data = ws.length

def Op.Ok : Op → Prop
  | .putWord item => PutOk c [item]
  | .putWordExt item data => PutOk c (item :: data)
  | .putData data => PutOk c data
  | .alloc wlen _ => 0 < wlen

/-- A producer in its loop, with the packet it has dropped and has to tell the user about. -/
structure Loop where
  op : Op
  tmpWrIdxShift : ℕ
  tmpWrIdxVal : ℕ
  droppedItem : Option ℕ

/-- What a producer may fill and has to commit. -/
structure Alloc where
  ptr : ℕ
  wlen : ℕ

structure State where
  buffer : Buffer
  producers : ℕ → Option Loop
  allocs : List Alloc
  /-- The packets the consumer has claimed and not freed, in order. -/
  held : List ℕ

inductive Action
  | call (p : ℕ) (op : Op)
  /-- A turn of the producer's loop. -/
  | turn (p : ℕ)
  /-- The producer tells the user about the packet it has dropped. -/
  | notify (p : ℕ)
  /-- The producer's wait has timed out. -/
  | giveUp (p : ℕ)
  | fill (k j : ℕ) (w : Word)
  | commit (k : ℕ)
  /-- A turn of the consumer's loop. -/
  | claim
  | free

def contents (buf : ℕ → Word) (ptr wlen : ℕ) : List Word :=
  (List.range wlen).map fun j =>
    if j = 0 then ⟨false, false, (buf ptr).data⟩ else buf (ptr + j)

def bare : List Word → List Word
  | [] => []
  | h :: ws => ⟨false, false, h.data⟩ :: ws

inductive Event
  | committed (id : ℕ) (packet : List Word)
  | claimed (id : ℕ) (packet : List Word)
  /-- Producer `p` has taken a packet out of the buffer. -/
  | dropped (p id : ℕ)
  | notified (p id : ℕ) (packet : List Word)

def packetAt (ptr : ℕ) : List Word := contents b.buf ptr (c.getWlen (b.buf ptr).data)

def producerTurn (s : State) (p : ℕ) (l : Loop) : State × List Event :=
  let b :=
    if l.tmpWrIdxShift ≠ 0 then postDropAction c s.buffer l.tmpWrIdxVal l.tmpWrIdxShift
    else s.buffer
  let loop := update s.producers p
  match l.op.turn c b with
  | (b', .stored) =>
    match l.op.packet with
    | some ws => ({ s with buffer := b', producers := loop none }, [.committed b.next (bare ws)])
    | none =>
      ({ s with
          buffer := b'
          producers := loop none
          allocs := s.allocs ++ [⟨b.tmpWrIdx, l.op.wlen⟩] }, [])
  | (b', .again) => ({ s with buffer := b', producers := loop (some ⟨l.op, 0, 0, none⟩) }, [])
  | (b', .failed) => ({ s with buffer := b', producers := loop none }, [])
  | (b', .dropped item shift val) =>
    ({ s with buffer := b', producers := loop (some ⟨l.op, shift, val, some item⟩) },
      [.dropped p (b'.stamp item)])

def notify (s : State) (p : ℕ) (l : Loop) (item : ℕ) : State × List Event :=
  let b := s.buffer
  let b :=
    match l.op with
    | .putData _ => { b with buf := update b.buf item { b.buf item with valid := false } }
    | _ => b
  ({ s with
      buffer := b
      producers := update s.producers p (some { l with droppedItem := none }) },
    [.notified p (b.stamp item) (packetAt c b item)])

def commit (s : State) (k : ℕ) (item : ℕ) : State × List Event :=
  let b := s.buffer
  let wlen := c.getWlen (b.buf item).data
  let b :=
    { b with
      buf := update b.buf item { b.buf item with valid := true }
      wrIdx := idxInc c b.wrIdx wlen }
  ({ s with buffer := b, allocs := s.allocs.eraseIdx k }, [.committed (b.stamp item) (packetAt c b item)])

def claimsNone : Prop := available c b = 0 ∨ isInvalid (b.buf b.tmpRdIdx) = true

instance : Decidable (claimsNone c b) := inferInstanceAs (Decidable (_ ∨ _))

def claim (s : State) : State × List Event :=
  let b := s.buffer
  let item := b.tmpRdIdx
  if claimsNone c b then (s, [])
  else
    let skip := getSkip (b.buf item)
    if skip ≠ 0 ∨ ¬isValid (b.buf item) then
      let inc := if skip ≠ 0 then skip else c.getWlen (b.buf item).data
      ({ s with buffer := rdIdxInc c { b with tmpRdIdx := idxInc c b.tmpRdIdx inc } inc }, [])
    else
      let b :=
        { b with
          buf := update b.buf item { b.buf item with busy := true }
          tmpRdIdx := idxInc c b.tmpRdIdx (c.getWlen (b.buf item).data) }
      ({ s with buffer := b, held := s.held ++ [item] },
        [.claimed (b.stamp item) (packetAt c b item)])

def free (item : ℕ) : Buffer :=
  let wlen := c.getWlen (b.buf item).data
  let b := { b with buf := update b.buf item { b.buf item with valid := false } }
  if ¬c.overwrite ∨ item = b.rdIdx then
    let b := { b with buf := update b.buf item { b.buf item with busy := false } }
    let b :=
      if b.rdIdx = b.tmpRdIdx then { b with tmpRdIdx := idxInc c b.tmpRdIdx wlen } else b
    rdIdxInc c b wlen
  else { b with buf := update b.buf item { b.buf item with data := wlen } }

def step (s : State) : Action → Option (State × List Event)
  | .call p op =>
    match s.producers p, op with
    | some _, _ => none
    | none, .alloc wlen wait =>
      -- more words than the buffer has are refused
      some (if c.size < wlen then s
        else { s with producers := update s.producers p (some ⟨.alloc wlen wait, 0, 0, none⟩) },
        [])
    | none, op =>
      some ({ s with producers := update s.producers p (some ⟨op, 0, 0, none⟩) }, [])
  | .turn p =>
    match s.producers p with
    | some ⟨op, shift, val, none⟩ => some (producerTurn c s p ⟨op, shift, val, none⟩)
    | _ => none
  | .notify p =>
    match s.producers p with
    | some ⟨op, shift, val, some item⟩ => some (notify c s p ⟨op, shift, val, some item⟩ item)
    | _ => none
  | .giveUp p =>
    match s.producers p with
    | some ⟨.alloc _ true, 0, _, none⟩ =>
      some ({ s with producers := update s.producers p none }, [])
    | _ => none
  | .fill k j w =>
    match s.allocs[k]? with
    | some a =>
      if j < a.wlen then
        -- the first two bits of the header are not the user's
        let w := if j = 0 then { s.buffer.buf a.ptr with data := w.data } else w
        some ({ s with buffer.buf := update s.buffer.buf (a.ptr + j) w }, [])
      else none
    | none => none
  | .commit k =>
    match s.allocs[k]? with
    | some a =>
      -- the user has written the length that it has allocated
      if c.getWlen (s.buffer.buf a.ptr).data = a.wlen then some (commit c s k a.ptr) else none
    | none => none
  | .claim => some (claim c s)
  | .free =>
    match s.held with
    | [] => none
    | item :: held => some ({ s with buffer := free c s.buffer item, held }, [])

def system (buf : ℕ → Word) : System State Action Event where
  init := ⟨⟨buf, 0, 0, 0, 0, false, fun _ => 0, 0⟩, fun _ => none, [], []⟩
  step := step c

/-- While the consumer holds a packet, with overwriting it claims no other; without, it claims none
that would bring it back to the read index, nor does it go past a skip packet. -/
def Apart (s : State) : Action → Prop
  | .call _ op => op.Ok c
  | .claim => s.held = [] ∨ c.overwrite = false ∧ (¬claimsNone c s.buffer →
      getSkip (s.buffer.buf s.buffer.tmpRdIdx) = 0 ∧
      idxInc c s.buffer.tmpRdIdx (c.getWlen (s.buffer.buf s.buffer.tmpRdIdx).data) ≠ s.buffer.rdIdx)
  | _ => True

end ZephyrRtos.MpscPbuf
