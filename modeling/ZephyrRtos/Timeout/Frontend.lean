import Mathlib.Data.Finset.Basic
import ZephyrRtos.Lib.MachineInt
import ZephyrRtos.Lib.Run
import ZephyrRtos.Lib.StableQueue

/-! The backend-independent timeout code of `kernel/timeout.c`: the two operations
that handlers, threads and interrupts call, the tick announcement, and the
transition system they form.  `timeout_lock` makes every call atomic; the announcing
CPU gives it up only around a handler, and that is where other calls interleave. -/

namespace ZephyrRtos.Timeout

open Lib

variable {τ : Type}

structure Queue (τ : Type) where
  State : Type
  init : State
  isInactive : State → τ → Bool
  insert : State → ℕ → τ → ℤ → Option (State × Bool)
  remove : State → ℕ → τ → State × Bool
  remainder : State → ℕ → τ → ℤ
  nextExpiry : State → ℕ → ℤ

structure DrainOps (Q : Queue τ) where
  nextGap : Q.State → ℕ → ℤ
  advance : Q.State → ℕ → ℤ → Q.State
  popDue : Q.State → ℕ → Option (τ × Q.State)

structure Config where
  smp : Bool
  sloppyIdle : Bool

/-- Where the announcing CPU stands.  At `top` and `drain` it holds the lock; at
`handler` it has dropped it.  The number is the local `num_ticks_to_advance` of a
loop that still has to account for it. -/
inductive Phase
  | idle
  | top
  | drain (n : ℕ)
  | handler (n : ℕ)
  deriving DecidableEq

inductive DriverCall
  | setTimeout (ticks now : ℕ)
  | noTimeout
  deriving DecidableEq

/-- The static variables of `timeout.c`.  `inflight` carries the superseded bit. -/
structure Kernel (Q : Queue τ) where
  queue : Q.State
  currTick : ℕ
  announceRemaining : ℕ
  announcingCpu : Option ℕ
  inflight : Option (τ × Bool)
  phase : Phase
  driver : Option DriverCall

def Kernel.boot (Q : Queue τ) : Kernel Q where
  queue := Q.init
  currTick := 0
  announceRemaining := 0
  announcingCpu := none
  inflight := none
  phase := .idle
  driver := none

def ticksForever : ℤ := -1
def sysClockMaxWait : ℕ := uint32Max / 2

def zTickAbs (t : ℤ) : ℤ := int64 (ticksForever - 1 - t)

def isTimeoutRelative (ticks : ℤ) : Bool := decide (0 ≤ ticks)

variable {Q : Queue τ}

def Kernel.lockFree (k : Kernel Q) : Bool :=
  match k.phase with
  | .idle | .handler _ => true
  | .top | .drain _ => false

def thisCpuAnnouncing (k : Kernel Q) (cpu : ℕ) : Bool := decide (k.announcingCpu = some cpu)
def anyCpuAnnouncing (k : Kernel Q) : Bool := k.announcingCpu.isSome

/-- `sysElapsed` is what the driver's `sys_clock_elapsed()` answers. -/
def elapsed (cfg : Config) (k : Kernel Q) (cpu sysElapsed : ℕ) : ℕ :=
  if thisCpuAnnouncing k cpu then 0
  else (sysElapsed + if cfg.smp then k.announceRemaining else 0) % 2 ^ 32

def nextTimeout (next : ℤ) (ticksElapsed : ℕ) : ℕ :=
  if sysClockMaxWait ≤ ticksElapsed then 0
  else if next = ticksForever ∨ (sysClockMaxWait : ℤ) ≤ next then sysClockMaxWait - ticksElapsed
  else if ticksElapsed < uint32 next then uint32 next - ticksElapsed else 0

def setTimeout (k : Kernel Q) (ticksElapsed : ℕ) : Kernel Q :=
  { k with driver := some (.setTimeout
      (nextTimeout (Q.nextExpiry k.queue k.currTick) ticksElapsed) (k.currTick + ticksElapsed)) }

def reprogramNext (cfg : Config) (k : Kernel Q) (ticksElapsed : ℕ) : Kernel Q :=
  if cfg.sloppyIdle ∧ Q.nextExpiry k.queue k.currTick = ticksForever then
    { k with driver := some .noTimeout }
  else setTimeout k ticksElapsed

/-- The delta `z_add_timeout` hands to `z_timeout_q_insert`. -/
def addDticks (cfg : Config) (k : Kernel Q) (cpu : ℕ) (ticks : ℤ) (sysElapsed : ℕ) : ℤ :=
  if isTimeoutRelative ticks then
    int64 (ticks + elapsed cfg k cpu sysElapsed + if thisCpuAnnouncing k cpu then 0 else 1)
  else max 1 (int64 (zTickAbs ticks - k.currTick))

def zAddTimeout (cfg : Config) (k : Kernel Q) (cpu : ℕ) (t : τ) (ticks : ℤ) (sysElapsed : ℕ) :
    Option (Kernel Q × ℤ) :=
  if ticks = ticksForever then some (k, 0)
  else
    let dticks := addDticks cfg k cpu ticks sysElapsed
    let ret := if isTimeoutRelative ticks then int64 (k.currTick + dticks) else ticks
    (Q.insert k.queue k.currTick t dticks).map fun (q, first) =>
      let k' := { k with queue := q }
      (if first && !anyCpuAnnouncing k then setTimeout k' (elapsed cfg k cpu sysElapsed) else k',
        ret)

inductive AbortResult
  | ok
  | einval
  | eagain
  deriving DecidableEq

def inflightPtr (k : Kernel Q) : Option τ := k.inflight.map Prod.fst

def inflightMarkSuperseded (k : Kernel Q) : Kernel Q :=
  { k with inflight := k.inflight.map fun x => (x.1, true) }

/-- `z_try_abort_timeout` before it looks at the in-flight mark. -/
def abortQueued [DecidableEq τ] (cfg : Config) (k : Kernel Q) (cpu : ℕ) (t : τ)
    (sysElapsed : ℕ) : Kernel Q × AbortResult :=
  if Q.isInactive k.queue t = false then
    let r := Q.remove k.queue k.currTick t
    let k' := { k with queue := r.1 }
    (if r.2 then reprogramNext cfg k' (elapsed cfg k' cpu sysElapsed) else k', .ok)
  else if cfg.smp ∧ inflightPtr k = some t ∧ thisCpuAnnouncing k cpu = false then (k, .eagain)
  else (k, .einval)

def zTryAbortTimeout [DecidableEq τ] (cfg : Config) (k : Kernel Q) (cpu : ℕ) (t : τ)
    (sysElapsed : ℕ) : Kernel Q × AbortResult :=
  let r := abortQueued cfg k cpu t sysElapsed
  (if inflightPtr r.1 = some t then inflightMarkSuperseded r.1 else r.1, r.2)

/-- `sys_clock_announce_locked` up to its loop. -/
def sysClockAnnounceLocked (cfg : Config) (k : Kernel Q) (cpu ticks : ℕ) : Kernel Q :=
  if cfg.smp && anyCpuAnnouncing k then
    { k with announceRemaining := (k.announceRemaining + ticks) % 2 ^ 32 }
  else { k with announceRemaining := ticks, announcingCpu := some cpu, phase := .top }

/-- The tail of `sys_clock_announce_locked`, once its loop is done. -/
def announceEnd (cfg : Config) (k : Kernel Q) : Kernel Q :=
  reprogramNext cfg { k with announcingCpu := none, phase := .idle } 0

def loopDt (gap : ℤ) (announceRemaining : ℕ) : ℤ :=
  if announceRemaining < uint32 gap then int32 announceRemaining else gap

/-- What the generic loop does with the lock held, up to its next test. -/
def genericLoop (D : DrainOps Q) (cfg : Config) (k : Kernel Q) : Kernel Q :=
  match k.phase with
  | .top =>
    if 0 < k.announceRemaining then
      let dt := loopDt (D.nextGap k.queue k.currTick) k.announceRemaining
      { k with
        queue := D.advance k.queue k.currTick dt
        currTick := (k.currTick + dt).toNat
        announceRemaining := uint32 (k.announceRemaining - dt)
        phase := .drain 0 }
    else announceEnd cfg k
  | .drain n =>
    match D.popDue k.queue k.currTick with
    | some (t, q) => { k with queue := q, inflight := some (t, false), phase := .handler n }
    | none => { k with phase := .top }
  | _ => k

def sysClockTickGet (cfg : Config) (k : Kernel Q) (cpu sysElapsed : ℕ) : ℕ :=
  k.currTick + elapsed cfg k cpu sysElapsed

structure Backend (τ : Type) where
  queue : Queue τ
  loopStep : Config → Kernel queue → Kernel queue

abbrev genericBackend (D : DrainOps Q) : Backend τ := ⟨Q, genericLoop D⟩

inductive Action (τ : Type)
  | add (cpu : ℕ) (t : τ) (ticks : ℤ) (sysElapsed : ℕ)
  | abort (cpu : ℕ) (t : τ) (sysElapsed : ℕ)
  | announce (cpu ticks : ℕ)
  | loop
  | handlerReturn

inductive Event (τ : Type)
  | added (t : τ) (expiry : ℤ)
  | aborted (t : τ)
  | fired (t : τ) (tick : ℕ)
  | announced (ticks : ℕ)
  deriving DecidableEq

/-- CPU numbers, tick counts and clock readings in the range of their C types; on a
uniprocessor the timer interrupt does not nest, so an announce finds none running. -/
def Action.admissible (cfg : Config) (k : Kernel Q) : Action τ → Bool
  | .add cpu t ticks sysElapsed =>
    k.lockFree && (cfg.smp || cpu == 0) && Q.isInactive k.queue t &&
      decide (int64Min ≤ ticks ∧ ticks ≤ int64Max) && decide (sysElapsed < 2 ^ 32)
  | .abort cpu _ sysElapsed =>
    k.lockFree && (cfg.smp || cpu == 0) && decide (sysElapsed < 2 ^ 32)
  | .announce cpu ticks =>
    k.lockFree && (cfg.smp || cpu == 0) && (cfg.smp || !anyCpuAnnouncing k) &&
      decide (ticks < 2 ^ 32)
  | .loop => !k.lockFree
  | .handlerReturn => match k.phase with
    | .handler _ => true
    | _ => false

/-- The loop step that leaves a handler running is the one that called it. -/
def Kernel.dispatched (k : Kernel Q) : List (Event τ) :=
  match k.phase, k.inflight with
  | .handler _, some (t, _) => [.fired t k.currTick]
  | _, _ => []

def step [DecidableEq τ] (B : Backend τ) (cfg : Config) (k : Kernel B.queue) (a : Action τ) :
    Option (Kernel B.queue × List (Event τ)) :=
  if a.admissible cfg k then
    match a with
    | .add cpu t ticks sysElapsed =>
      (zAddTimeout cfg k cpu t ticks sysElapsed).map fun r =>
        (r.1, if ticks = ticksForever then []
          else [.added t (k.currTick + addDticks cfg k cpu ticks sysElapsed)])
    | .abort cpu t sysElapsed =>
      let r := zTryAbortTimeout cfg k cpu t sysElapsed
      some (r.1, if r.2 = .ok then [.aborted t] else [])
    | .announce cpu ticks => some (sysClockAnnounceLocked cfg k cpu ticks, [.announced ticks])
    | .loop =>
      let k' := B.loopStep cfg k
      some (k', k'.dispatched)
    | .handlerReturn =>
      match k.phase with
      | .handler n => some ({ k with inflight := none, phase := .drain n }, [])
      | _ => none
  else none

def system [DecidableEq τ] (B : Backend τ) (cfg : Config) :
    System (Kernel B.queue) (Action τ) (Event τ) :=
  ⟨Kernel.boot B.queue, step B cfg⟩

/-- The timeouts a trace leaves pending, oldest first, with their expiry ticks. -/
def Event.apply [DecidableEq τ] (p : List (τ × ℤ)) : Event τ → List (τ × ℤ)
  | .added t e => p ++ [(t, e)]
  | .aborted t => dropKey t p
  | .fired t _ => dropKey t p
  | .announced _ => p

def pendingOf [DecidableEq τ] (es : List (Event τ)) : List (τ × ℤ) := es.foldl Event.apply []

def announcedOf : List (Event τ) → ℕ
  | [] => 0
  | .announced n :: es => n + announcedOf es
  | _ :: es => announcedOf es

open List
variable [DecidableEq τ] {B : Backend τ} {cfg : Config}

section Traces

@[simp] theorem pendingOf_nil : pendingOf ([] : List (Event τ)) = [] := rfl

@[simp] theorem pendingOf_snoc (es : List (Event τ)) (e : Event τ) :
    pendingOf (es ++ [e]) = e.apply (pendingOf es) := by
  simp [pendingOf]

@[simp] theorem announcedOf_append (es es' : List (Event τ)) :
    announcedOf (es ++ es') = announcedOf es + announcedOf es' := by
  induction es with
  | nil => simp [announcedOf]
  | cons e es ih => cases e <;> simp [announcedOf, ih, add_assoc]

/-- Every firing in the trace is of an entry that was pending for exactly that tick,
with no pending entry due earlier, and is one that `pick` allows. -/
def OnTime (pick : List (τ × ℤ) → τ × ℤ → Prop) (es : List (Event τ)) : Prop :=
  ∀ es₁ t (c : ℕ) es₂, es = es₁ ++ .fired t c :: es₂ →
    (t, (c : ℤ)) ∈ pendingOf es₁ ∧ (∀ x ∈ pendingOf es₁, (c : ℤ) ≤ x.2) ∧
      pick (pendingOf es₁) (t, c)

theorem fired_of_snoc {es es₁ es₂ : List (Event τ)} {e : Event τ}
    (h : es ++ [e] = es₁ ++ .fired t c :: es₂) :
    (es₁ = es ∧ e = .fired t c) ∨ ∃ es₃, es = es₁ ++ .fired t c :: es₃ := by
  rcases eq_nil_or_concat es₂ with rfl | ⟨es₃, e', rfl⟩
  · obtain ⟨rfl, heq⟩ := append_inj' h rfl
    exact .inl ⟨rfl, by simpa using heq⟩
  · have : es ++ [e] = (es₁ ++ .fired t c :: es₃) ++ [e'] := by simpa using h
    exact .inr ⟨es₃, (append_inj' this rfl).1⟩

theorem OnTime.snoc {pick : List (τ × ℤ) → τ × ℤ → Prop} {es : List (Event τ)} {e : Event τ}
    (h : OnTime pick es)
    (he : ∀ t (c : ℕ), e = .fired t c → (t, (c : ℤ)) ∈ pendingOf es ∧
      (∀ x ∈ pendingOf es, (c : ℤ) ≤ x.2) ∧ pick (pendingOf es) (t, c)) :
    OnTime pick (es ++ [e]) := by
  intro es₁ t c es₂ heq
  rcases fired_of_snoc heq with ⟨rfl, hlast⟩ | ⟨es₃, hold⟩
  · exact he t c hlast
  · exact h _ _ _ _ hold

theorem OnTime.not_fired {pick : List (τ × ℤ) → τ × ℤ → Prop} {es : List (Event τ)}
    (h : OnTime pick es) {e : Event τ} (he : ∀ t c, e ≠ .fired t c) : OnTime pick (es ++ [e]) :=
  h.snoc fun t c heq => absurd heq (he t c)

def Event.subject : Event τ → Option τ
  | .added t _ => some t
  | .aborted t => some t
  | .fired t _ => some t
  | .announced _ => none

theorem mem_pendingOf_of_other {es : List (Event τ)} {e : Event τ} (he : e.subject ≠ some t) :
    (t, x) ∈ pendingOf (es ++ [e]) ↔ (t, x) ∈ pendingOf es := by
  have hne : ∀ {u}, e.subject = some u → t ≠ u := by
    rintro u hu rfl
    exact he hu
  rw [pendingOf_snoc]
  cases e with
  | added u d => simp [Event.apply, hne rfl]
  | aborted u => simp [Event.apply, hne rfl]
  | fired u c => simp [Event.apply, hne rfl]
  | announced n => rfl

def FiredOnTime (t : τ) (es : List (Event τ)) : Prop :=
  ∀ es₁ (c : ℕ) es₂, es = es₁ ++ .fired t c :: es₂ → (t, (c : ℤ)) ∈ pendingOf es₁

theorem FiredOnTime.snoc {es : List (Event τ)} {e : Event τ} (h : FiredOnTime t es)
    (he : ∀ c : ℕ, e = .fired t c → (t, (c : ℤ)) ∈ pendingOf es) : FiredOnTime t (es ++ [e]) := by
  intro es₁ c es₂ heq
  rcases fired_of_snoc heq with ⟨rfl, hlast⟩ | ⟨es₃, hold⟩
  · exact he c hlast
  · exact h _ _ _ hold

theorem FiredOnTime.not_fired_of_none {es es₁ es₂ : List (Event τ)} (h : FiredOnTime t es)
    (heq : es = es₁ ++ es₂) (ht : t ∉ (pendingOf es₁).map Prod.fst) (hadd : ∀ e, .added t e ∉ es₂)
    (c : ℕ) : .fired t c ∉ es₂ := by
  subst heq
  induction es₂ generalizing es₁ with
  | nil => simp
  | cons e es₂ ih =>
    have hnot : e ≠ .fired t c := by
      rintro rfl
      exact ht (mem_map_of_mem (h es₁ c es₂ rfl))
    have hkeep : t ∉ (pendingOf (es₁ ++ [e])).map Prod.fst := by
      rw [pendingOf_snoc]
      cases e with
      | added u d =>
        have hu : t ≠ u := by
          rintro rfl
          exact hadd d mem_cons_self
        simpa [Event.apply, hu] using ht
      | aborted u => exact fun hm => ht (mem_of_mem_dropKey hm)
      | fired u d => exact fun hm => ht (mem_of_mem_dropKey hm)
      | announced n => exact ht
    have hrest := ih hkeep (fun d hd => hadd d (mem_cons_of_mem _ hd)) (by simpa using h)
    simpa [hnot.symm] using hrest

theorem OnTime.firedOnTime (h : OnTime pick es) (t : τ) : FiredOnTime t es :=
  fun es₁ c es₂ heq => (h es₁ t c es₂ heq).1

def firedTicks : List (Event τ) → List ℕ
  | [] => []
  | .fired _ c :: es => c :: firedTicks es
  | _ :: es => firedTicks es

@[simp] theorem firedTicks_append (es es' : List (Event τ)) :
    firedTicks (es ++ es') = firedTicks es ++ firedTicks es' := by
  induction es with
  | nil => simp [firedTicks]
  | cons e es ih => cases e <;> simp [firedTicks, ih]

end Traces

structure SameClock (k k' : Kernel Q) : Prop where
  currTick : k'.currTick = k.currTick
  announceRemaining : k'.announceRemaining = k.announceRemaining
  announcingCpu : k'.announcingCpu = k.announcingCpu
  phase : k'.phase = k.phase

section

omit [DecidableEq τ]

@[simp] theorem setTimeout_queue (k : Kernel Q) (n : ℕ) : (setTimeout k n).queue = k.queue := rfl

@[simp] theorem reprogram_queue (k : Kernel Q) (n : ℕ) :
    (reprogramNext cfg k n).queue = k.queue := by
  simp only [reprogramNext]
  split <;> rfl

theorem reprogram_clock (cfg : Config) (k : Kernel Q) (n : ℕ) : SameClock k (reprogramNext cfg k n) := by
  simp only [reprogramNext]
  split <;> exact ⟨rfl, rfl, rfl, rfl⟩

@[simp] theorem end_dispatched (cfg : Config) (k : Kernel Q) :
    (announceEnd cfg k).dispatched = [] := by
  simp only [announceEnd, reprogramNext]
  split <;> rfl

theorem addDticks_le (cfg : Config) (k : Kernel Q) (cpu : ℕ) (ticks : ℤ) (sysElapsed : ℕ) :
    addDticks cfg k cpu ticks sysElapsed ≤ int64Max := by
  simp only [addDticks]
  split
  · exact (int64_range _).2
  · exact max_le (by decide) (int64_range _).2

end

section Steps

variable {k k' : Kernel B.queue} {es : List (Event τ)}

theorem step_add (h : step B cfg k (.add cpu t ticks sysElapsed) = some (k', es)) :
    k.lockFree = true ∧ B.queue.isInactive k.queue t = true ∧
      (int64Min ≤ ticks ∧ ticks ≤ int64Max) ∧ sysElapsed < 2 ^ 32 ∧
      ((ticks = ticksForever ∧ k' = k ∧ es = []) ∨
        ticks ≠ ticksForever ∧ ∃ q first,
          B.queue.insert k.queue k.currTick t (addDticks cfg k cpu ticks sysElapsed) =
            some (q, first) ∧
          k' = (if first && !anyCpuAnnouncing k then
            setTimeout { k with queue := q } (elapsed cfg k cpu sysElapsed)
            else { k with queue := q }) ∧
          es = [.added t (k.currTick + addDticks cfg k cpu ticks sysElapsed)]) := by
  simp only [step] at h
  split at h
  case isFalse => simp at h
  next hadm =>
  simp only [Action.admissible, Bool.and_eq_true, decide_eq_true_eq] at hadm
  obtain ⟨⟨⟨⟨hlf, -⟩, hin⟩, hrange⟩, hel⟩ := hadm
  refine ⟨hlf, hin, hrange, hel, ?_⟩
  by_cases hf : ticks = ticksForever
  · left
    simpa [zAddTimeout, hf, eq_comm] using h
  right
  obtain ⟨r, hr, hk, rfl⟩ : ∃ r, zAddTimeout cfg k cpu t ticks sysElapsed = some r ∧ r.1 = k' ∧
      [.added t (k.currTick + addDticks cfg k cpu ticks sysElapsed)] = es := by
    simpa [hf] using h
  simp only [zAddTimeout, if_neg hf, Option.map_eq_some_iff] at hr
  obtain ⟨⟨q, first⟩, hins, rfl⟩ := hr
  exact ⟨hf, q, first, hins, hk.symm, rfl⟩

theorem step_abort (h : step B cfg k (.abort cpu t sysElapsed) = some (k', es)) :
    k.lockFree = true ∧ sysElapsed < 2 ^ 32 ∧
      ∃ k₁, (k' = k₁ ∨ k' = inflightMarkSuperseded k₁) ∧
      ((B.queue.isInactive k.queue t = true ∧ es = [] ∧ k₁ = k) ∨
        (B.queue.isInactive k.queue t = false ∧ es = [.aborted t] ∧
          k₁ = let k₂ := { k with queue := (B.queue.remove k.queue k.currTick t).1 }
            if (B.queue.remove k.queue k.currTick t).2 then
              reprogramNext cfg k₂ (elapsed cfg k₂ cpu sysElapsed) else k₂)) := by
  simp only [step] at h
  split at h
  case isFalse => simp at h
  next hadm =>
  simp only [Action.admissible, Bool.and_eq_true, decide_eq_true_eq] at hadm
  obtain ⟨⟨hlf, -⟩, hel⟩ := hadm
  obtain ⟨hk, he⟩ : (zTryAbortTimeout cfg k cpu t sysElapsed).1 = k' ∧
      (if (zTryAbortTimeout cfg k cpu t sysElapsed).2 = .ok then [.aborted t] else []) = es := by
    simpa using h
  refine ⟨hlf, hel, (abortQueued cfg k cpu t sysElapsed).1, ?_, ?_⟩
  · simp only [zTryAbortTimeout] at hk
    split at hk
    · exact .inr hk.symm
    · exact .inl hk.symm
  simp only [zTryAbortTimeout] at he
  cases hin : B.queue.isInactive k.queue t with
  | true =>
    left
    simp only [abortQueued, hin, Bool.true_eq_false, if_false] at he ⊢
    split <;> simp_all
  | false =>
    right
    simp only [abortQueued, hin, if_true] at he ⊢
    exact ⟨trivial, he.symm, trivial⟩

theorem step_add_queue (h : step B cfg k (.add cpu t ticks sysElapsed) = some (k', es)) :
    (k' = k ∧ es = []) ∨ ∃ q first,
      B.queue.insert k.queue k.currTick t (addDticks cfg k cpu ticks sysElapsed) =
        some (q, first) ∧ k'.queue = q ∧ SameClock k k' ∧
      es = [.added t (k.currTick + addDticks cfg k cpu ticks sysElapsed)] := by
  obtain ⟨-, -, -, -, ⟨-, rfl, rfl⟩ | ⟨-, q, first, hins, hk, rfl⟩⟩ := step_add h
  · exact .inl ⟨rfl, rfl⟩
  · refine .inr ⟨q, first, hins, ?_⟩
    rw [hk]
    split
    · exact ⟨rfl, ⟨rfl, rfl, rfl, rfl⟩, rfl⟩
    · exact ⟨rfl, ⟨rfl, rfl, rfl, rfl⟩, rfl⟩

theorem step_abort_queue (h : step B cfg k (.abort cpu t sysElapsed) = some (k', es)) :
    SameClock k k' ∧
      ((B.queue.isInactive k.queue t = true ∧ es = [] ∧ k'.queue = k.queue) ∨
        (B.queue.isInactive k.queue t = false ∧ es = [.aborted t] ∧
          k'.queue = (B.queue.remove k.queue k.currTick t).1)) := by
  obtain ⟨-, -, k₁, hk, hcase⟩ := step_abort h
  have hmark : SameClock k₁ k' ∧ k'.queue = k₁.queue := by
    rcases hk with rfl | rfl <;> exact ⟨⟨rfl, rfl, rfl, rfl⟩, rfl⟩
  obtain ⟨hin, rfl, rfl⟩ | ⟨hin, rfl, hk₁⟩ := hcase
  · exact ⟨hmark.1, .inl ⟨hin, rfl, hmark.2⟩⟩
  have hrem : SameClock k k₁ ∧ k₁.queue = (B.queue.remove k.queue k.currTick t).1 := by
    rw [hk₁]
    split
    · obtain ⟨h1, h2, h3, h4⟩ := reprogram_clock cfg
        { k with queue := (B.queue.remove k.queue k.currTick t).1 } _
      exact ⟨⟨h1, h2, h3, h4⟩, reprogram_queue _ _⟩
    · exact ⟨⟨rfl, rfl, rfl, rfl⟩, rfl⟩
  exact ⟨⟨hmark.1.1.trans hrem.1.1, hmark.1.2.trans hrem.1.2, hmark.1.3.trans hrem.1.3,
    hmark.1.4.trans hrem.1.4⟩, .inr ⟨hin, rfl, hmark.2.trans hrem.2⟩⟩

theorem step_announce (h : step B cfg k (.announce cpu ticks) = some (k', es)) :
    k.lockFree = true ∧ ticks < 2 ^ 32 ∧ es = [.announced ticks] ∧
      ((cfg.smp = true ∧ k.announcingCpu.isSome ∧
          k' = { k with announceRemaining := (k.announceRemaining + ticks) % 2 ^ 32 }) ∨
        (k.announcingCpu = none ∧
          k' = { k with announceRemaining := ticks, announcingCpu := some cpu, phase := .top })) := by
  simp only [step] at h
  split at h
  case isFalse => simp at h
  next hadm =>
  simp only [Action.admissible, Bool.and_eq_true, decide_eq_true_eq, anyCpuAnnouncing] at hadm
  obtain ⟨⟨⟨hlf, -⟩, hup⟩, ht⟩ := hadm
  obtain ⟨hk, rfl⟩ : sysClockAnnounceLocked cfg k cpu ticks = k' ∧ [.announced ticks] = es := by
    simpa using h
  refine ⟨hlf, ht, rfl, ?_⟩
  simp only [sysClockAnnounceLocked, anyCpuAnnouncing, Bool.and_eq_true] at hk
  split at hk
  · next hc => exact .inl ⟨hc.1, hc.2, hk.symm⟩
  · right
    refine ⟨?_, hk.symm⟩
    cases hcpu : k.announcingCpu with
    | none => rfl
    | some c => simp_all

theorem step_loop (h : step B cfg k .loop = some (k', es)) :
    k.lockFree = false ∧ k' = B.loopStep cfg k ∧ es = k'.dispatched := by
  simp only [step] at h
  split at h
  case isFalse => simp at h
  next hadm =>
  obtain ⟨rfl, rfl⟩ : B.loopStep cfg k = k' ∧ (B.loopStep cfg k).dispatched = es := by
    simpa using h
  exact ⟨by simpa [Action.admissible] using hadm, rfl, rfl⟩

theorem step_return (h : step B cfg k .handlerReturn = some (k', es)) :
    ∃ n, k.phase = .handler n ∧ k' = { k with inflight := none, phase := .drain n } ∧ es = [] := by
  simp only [step] at h
  split at h
  case isFalse => simp at h
  split at h
  · next n hn =>
    obtain ⟨rfl, rfl⟩ : { k with inflight := none, phase := .drain n } = k' ∧ [] = es := by
      simpa using h
    exact ⟨n, hn, rfl, rfl⟩
  · simp at h

theorem step_of_locked (hl : k.lockFree = false) (h : step B cfg k a = some (k', es)) :
    k' = B.loopStep cfg k ∧ es = (B.loopStep cfg k).dispatched := by
  cases a with
  | loop =>
    obtain ⟨-, rfl, rfl⟩ := step_loop h
    exact ⟨rfl, rfl⟩
  | handlerReturn =>
    obtain ⟨n, hp, -⟩ := step_return h
    simp [Kernel.lockFree, hp] at hl
  | add | abort | announce => simp [step, Action.admissible, hl] at h

variable (cfg) in
theorem step_return_eq (h : k.phase = .handler n) :
    step B cfg k .handlerReturn = some ({ k with inflight := none, phase := .drain n }, []) := by
  simp [step, Action.admissible, h]

end Steps

theorem reaches_queue {D : DrainOps Q} {I : Q.State → Prop} (h0 : I Q.init)
    (hins : ∀ {s c t d s' b}, I s → Q.isInactive s t = true → Q.insert s c t d = some (s', b) → I s')
    (hrem : ∀ {s c t}, I s → Q.isInactive s t = false → I (Q.remove s c t).1)
    (hadv : ∀ {s c dt}, I s → I (D.advance s c dt))
    (hpop : ∀ {s c t s'}, I s → D.popDue s c = some (t, s') → I s')
    {ok : Kernel Q → Action τ → Prop} {es : List (Event τ)} {k : Kernel Q}
    (h : Reaches (system (genericBackend D) cfg) ok es k) : I k.queue := by
  refine Run.invariant (I := fun _ k => I k.queue) h0 ?_ h
  intro _ k a k' es' hI _ hs
  cases a with
  | add cpu t ticks sysElapsed =>
    obtain ⟨-, hin, -⟩ := step_add hs
    obtain ⟨rfl, -⟩ | ⟨-, first, hq, rfl, -⟩ := step_add_queue hs
    · exact hI
    · exact hins hI hin hq
  | abort cpu t sysElapsed =>
    obtain ⟨-, ⟨-, -, hq⟩ | ⟨hin, -, hq⟩⟩ := step_abort_queue hs
    · exact hq ▸ hI
    · exact hq ▸ hrem hI hin
  | announce cpu ticks =>
    obtain ⟨-, -, -, ⟨-, -, rfl⟩ | ⟨-, rfl⟩⟩ := step_announce hs <;> exact hI
  | handlerReturn =>
    obtain ⟨-, -, rfl, -⟩ := step_return hs
    exact hI
  | loop =>
    obtain ⟨-, rfl, -⟩ := step_loop hs
    simp only [genericLoop]
    split
    · split
      · exact hadv hI
      · rwa [announceEnd, reprogram_queue]
    · split
      · next hq => exact hpop hI hq
      · exact hI
    · exact hI

section Completion

/-- Handlers that make no calls: the announcing CPU alone moves. -/
def Action.unattended (a : Action τ) : Prop := a = .loop ∨ a = .handlerReturn

theorem completes_of_measure [Preorder β] [WellFoundedLT β]
    {I : List (Event τ) → Kernel B.queue → Prop} {μ : List (Event τ) → Kernel B.queue → β}
    (hloop : ∀ es k, I es k → k.lockFree = false →
      let k' := B.loopStep cfg k
      I (es ++ k'.dispatched) k' ∧ (k'.phase = .idle ∨ μ (es ++ k'.dispatched) k' < μ es k))
    (hret : ∀ es k n, I es k → k.phase = .handler n →
      let k' := { k with inflight := none, phase := .drain n }
      I es k' ∧ μ es k' < μ es k) (es : List (Event τ)) {k : Kernel B.queue} (h : I es k) :
    ∃ es' k', Run (system B cfg) (fun _ a => a.unattended) k es' k' ∧ k'.phase = .idle := by
  induction hn : μ es k using WellFoundedLT.induction generalizing es k with
  | ind b ih =>
    subst hn
    cases hl : k.lockFree with
    | false =>
      obtain ⟨hI, hdone⟩ := hloop es k h hl
      have hs : step B cfg k .loop = some (B.loopStep cfg k, (B.loopStep cfg k).dispatched) := by
        simp [step, Action.admissible, hl]
      rcases hdone with hidle | hlt
      · exact ⟨_, _, .head (.inl rfl) hs .refl, hidle⟩
      · obtain ⟨es', k', hrun, hidle⟩ := ih _ hlt _ hI rfl
        exact ⟨_, k', .head (.inl rfl) hs hrun, hidle⟩
    | true =>
      cases hp : k.phase with
      | idle => exact ⟨[], k, .refl, hp⟩
      | top => simp [Kernel.lockFree, hp] at hl
      | drain n => simp [Kernel.lockFree, hp] at hl
      | handler n =>
        obtain ⟨hI, hlt⟩ := hret es k n h hp
        obtain ⟨es', k', hrun, hidle⟩ := ih _ hlt _ hI rfl
        exact ⟨_, k', .head (.inr rfl) (step_return_eq cfg hp) hrun, hidle⟩

end Completion

end ZephyrRtos.Timeout
