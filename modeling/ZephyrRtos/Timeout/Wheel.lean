import ZephyrRtos.Lib.Bitmap
import ZephyrRtos.Lib.DeltaSeq
import ZephyrRtos.Timeout.Frontend

/-! `kernel/timeout_wheel.h`: the timer wheel.  `NUM_SOON_LISTS` and `NUM_LATER_LISTS`
are both 32. -/

namespace ZephyrRtos.Timeout.Wheel

open Function Lib

variable {τ : Type} [DecidableEq τ]

inductive Slot
  | soon (i : ℕ)
  | later (j : ℕ)
  | distant
  | soonDefer
  deriving DecidableEq

def Slot.all : List Slot :=
  (List.range 32).map .soon ++ (List.range 32).map .later ++ [.distant, .soonDefer]

/-- The wheel, with the `dticks` and `flags` fields of every timeout. -/
structure State (τ : Type) where
  lists : Slot → List τ
  soonBits : BitVec 32
  soonIndex : ℕ
  laterIndex : ℕ
  announcing : ℕ
  sifted : ℕ
  dticks : τ → ℤ
  flagSoon : τ → Bool
  flagLater : τ → Bool

def timeoutWheelInit : State τ where
  lists _ := []
  soonBits := 0
  soonIndex := 31
  laterIndex := 0
  announcing := 0
  sifted := 1
  dticks _ := 0
  flagSoon _ := false
  flagLater _ := false

def timeoutWheelClearFlags (s : State τ) (t : τ) : State τ :=
  { s with
    flagSoon := update s.flagSoon t false
    flagLater := update s.flagLater t false }

def sysDlistAppend (s : State τ) (x : Slot) (t : τ) : State τ :=
  { s with lists := update s.lists x (s.lists x ++ [t]) }

def sysDlistPrepend (s : State τ) (x : Slot) (t : τ) : State τ :=
  { s with lists := update s.lists x (t :: s.lists x) }

def sysDlistRemove (s : State τ) (t : τ) : State τ :=
  { s with lists := fun x => (s.lists x).erase t }

def firstIndex (s : State τ) : ℕ :=
  let bitmap := s.soonBits ||| bit 32 31
  countTrailingZeros (if s.sifted = 0 then bitsFrom bitmap s.soonIndex else bitmap)

def timeoutWheelFirst (s : State τ) : Option τ := (s.lists (.soon (firstIndex s))).head?

def timeoutWheelPrependSoon (s : State τ) (t : τ) : State τ :=
  let index := (s.dticks t % 32).toNat
  sysDlistPrepend { s with
    soonBits := s.soonBits ||| bit 32 index
    flagSoon := update s.flagSoon t true
    dticks := update s.dticks t index } (.soon index) t

def timeoutWheelAppendSoon (s : State τ) (t : τ) : State τ :=
  let index := ((s.dticks t + s.soonIndex) % 32).toNat
  sysDlistAppend { s with
    soonBits := s.soonBits ||| bit 32 index
    flagSoon := update s.flagSoon t true
    dticks := update s.dticks t index } (.soon index) t

def timeoutWheelAppendSoonDefer (s : State τ) (t : τ) : State τ :=
  let index := ((s.dticks t + s.soonIndex) % 32).toNat
  sysDlistAppend { s with
    flagSoon := update s.flagSoon t true
    dticks := update s.dticks t (index + 32) } .soonDefer t

/-- The later list of a position counted from the start of this rotation's first band. -/
def laterBand (s : State τ) (position : ℕ) : ℕ :=
  (((position / 32 : ℕ) + s.laterIndex - s.sifted : ℤ) % 32).toNat

def timeoutWheelAppendLater (s : State τ) (t : τ) : State τ :=
  let position := uint32 (s.dticks t + s.soonIndex - 32)
  let soon := position % 32
  let later := laterBand s position
  sysDlistAppend { s with
    flagLater := update s.flagLater t true
    dticks := update s.dticks t (later * 32 + soon) } (.later later) t

/-- The last tick the later lists reach; what is beyond goes to the distant list. -/
def cutoff (s : State τ) : ℤ := (32 + s.sifted + 1) * 32 - s.soonIndex - 1

def timeoutWheelInsertDistant (s : State τ) (t : τ) : State τ :=
  let r := deltaInsert t (s.lists .distant) s.dticks (s.dticks t - cutoff s)
  { s with lists := update s.lists .distant r.1, dticks := r.2 }

/-- `none` is the failed assertion. -/
def timeoutWheelAddTimeout (s : State τ) (t : τ) : Option (State τ) :=
  if s.dticks t = 0 then none
  else if s.dticks t ≤ 32 - s.announcing then some (timeoutWheelAppendSoon s t)
  else if s.dticks t = 32 then some (timeoutWheelAppendSoonDefer s t)
  else if s.dticks t ≤ cutoff s then some (timeoutWheelAppendLater s t)
  else some (timeoutWheelInsertDistant s t)

def timeoutWheelRemoveTimeout (s : State τ) (t : τ) : State τ :=
  let s₁ := sysDlistRemove s t
  let index := uint32 (s.dticks t)
  let s₂ := if s.flagSoon t ∧ index < 32 ∧ s₁.lists (.soon index) = [] then
    { s₁ with soonBits := s.soonBits &&& ~~~bit 32 index } else s₁
  timeoutWheelClearFlags s₂ t

def timeoutWheelRemainder (s : State τ) (t : τ) : ℤ :=
  if s.flagSoon t then
    let idx := uint32 (s.dticks t)
    if idx = s.soonIndex then (1 - s.announcing) * 32
    else if 32 ≤ idx then 32
    else ((idx : ℤ) - s.soonIndex) % 32
  else if s.flagLater t then
    let laterSlot := s.dticks t / 32
    let soonIndex := s.dticks t % 32
    let slotsAhead := (laterSlot - s.laterIndex) % 32 + s.sifted
    (32 - s.soonIndex) + slotsAhead * 32 + soonIndex
  else deltaSum s.dticks t (cutoff s) (s.lists .distant)

def timeoutWheelSiftDownToSoon (s : State τ) : State τ :=
  -- last to first, as the loop takes them
  (s.lists (.later s.laterIndex)).foldr
    (fun t s => timeoutWheelPrependSoon (timeoutWheelClearFlags (sysDlistRemove s t) t) t) s

/-- The preparing pass over the distant list: the timeouts to move, those that stay,
and the new `dticks` and flags. -/
def siftPrepare : List τ → ℤ → ℤ → (τ → ℤ) → (τ → Bool) → List τ × List τ × (τ → ℤ) × (τ → Bool)
  | [], _, _, dticks, flagLater => ([], [], dticks, flagLater)
  | t :: ts, siftTicks, newDticks, dticks, flagLater =>
    if siftTicks ≤ dticks t then
      ([], t :: ts, update dticks t (dticks t - siftTicks), flagLater)
    else
      let r := siftPrepare ts (siftTicks - dticks t) (newDticks + dticks t)
        (update dticks t (newDticks + dticks t)) (update flagLater t true)
      (t :: r.1, r.2)

def timeoutWheelSiftDownToLater (s : State τ) : State τ :=
  let r := siftPrepare (s.lists .distant) 32 (s.laterIndex * 32) s.dticks s.flagLater
  { s with
    lists := update (update s.lists .distant r.2.1) (.later s.laterIndex)
      (r.1 ++ s.lists (.later s.laterIndex))
    dticks := r.2.2.1
    flagLater := r.2.2.2 }

def timeoutWheelSiftDown (s : State τ) : State τ :=
  let s := timeoutWheelSiftDownToLater (timeoutWheelSiftDownToSoon s)
  { s with laterIndex := (s.laterIndex + 1) % 32, sifted := 1 }

def undefer (s : State τ) (t : τ) : State τ :=
  let index := (s.dticks t % 32).toNat
  sysDlistAppend { sysDlistRemove s t with
    soonBits := s.soonBits ||| bit 32 index
    dticks := update s.dticks t index } (.soon index) t

/-- `timeout_wheel_announce_now` once the current slot is drained. -/
def announceNowEnd (s : State τ) : State τ :=
  let s := (s.lists .soonDefer).foldl undefer { s with announcing := 0 }
  if s.soonIndex = 31 then timeoutWheelSiftDown s else s

def zTimeoutQInsert (s : State τ) (t : τ) (dticks : ℤ) : Option (State τ × Bool) :=
  (timeoutWheelAddTimeout { s with dticks := update s.dticks t dticks } t).map
    fun s' => (s', decide (timeoutWheelFirst s' = some t))

def zTimeoutQRemove (s : State τ) (t : τ) : State τ × Bool :=
  (timeoutWheelRemoveTimeout s t, decide (timeoutWheelFirst s = some t))

def zTimeoutQNextExpiry (s : State τ) : ℤ :=
  let dticks := match timeoutWheelFirst s with
    | some t => s.dticks t
    | none => 31
  (31 - s.soonIndex + dticks) % 32 + 1

def numTicksToAdvance (s : State τ) : ℕ :=
  let next := countTrailingZeros (bitsFrom (s.soonBits ||| bit 32 31) ((s.soonIndex + 1) % 32))
  let correction := (s.soonIndex + 1) / 32 * 32
  next + correction - s.soonIndex

abbrev queue (τ : Type) [DecidableEq τ] : Queue τ where
  State := State τ
  init := timeoutWheelInit
  isInactive s t := decide (∀ x ∈ Slot.all, t ∉ s.lists x)
  insert s _ t d := zTimeoutQInsert s t d
  remove s _ t := zTimeoutQRemove s t
  remainder s _ t := timeoutWheelRemainder s t
  nextExpiry s _ := zTimeoutQNextExpiry s

def skip (s : State τ) (n : ℕ) : State τ :=
  { s with sifted := 0, soonIndex := (s.soonIndex + n) % 32 }

def land (s : State τ) (n : ℕ) : State τ :=
  let soonIndex := (s.soonIndex + n) % 32
  { s with
    soonIndex
    soonBits := s.soonBits &&& ~~~bit 32 soonIndex
    sifted := 0
    announcing := 1 }

/-- `z_timeout_q_announce` and `timeout_wheel_announce_now`, one locked stretch at a
time. -/
def zTimeoutQAnnounce (cfg : Config) (k : Kernel (queue τ)) : Kernel (queue τ) :=
  match k.phase with
  | .top =>
    if 0 < k.announceRemaining then
      let n := numTicksToAdvance k.queue
      if k.announceRemaining < n then
        { k with
          queue := skip k.queue k.announceRemaining
          currTick := k.currTick + k.announceRemaining
          announceRemaining := 0 }
      else
        { k with
          queue := land k.queue n
          currTick := k.currTick + n
          phase := .drain n }
    else announceEnd cfg k
  | .drain n =>
    match (k.queue.lists (.soon k.queue.soonIndex)).head? with
    | some t =>
      { k with
        queue := timeoutWheelClearFlags (sysDlistRemove k.queue t) t
        inflight := some (t, false)
        phase := .handler n }
    | none =>
      { k with
        queue := announceNowEnd k.queue
        announceRemaining := uint32 (k.announceRemaining - n)
        phase := .top }
  | _ => k

abbrev backend (τ : Type) [DecidableEq τ] : Backend τ := ⟨queue τ, zTimeoutQAnnounce⟩

end ZephyrRtos.Timeout.Wheel
