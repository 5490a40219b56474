import ZephyrRtos.Lib.Monitor
import ZephyrRtos.Msgq.Moves

namespace ZephyrRtos.Msgq

open Function (update update_of_ne update_self)

open Lib Sched

variable {cfg : Config} {τ : Type}

namespace Event

def thread : Event cfg τ → τ
  | .called t _ | .accepted t _ _ | .received t _ | .peeked t _ _ | .purged t | .returned t _ _ => t

def ops : Event cfg τ → List (DequeOp (Msg cfg))
  | .accepted _ data true => [.pushBack data]
  | .accepted _ data false => [.pushFront data]
  | .received _ data => [.popFront data]
  | .peeked _ idx data => [.peek idx data]
  | .purged _ => [.clear]
  | .called .. | .returned .. => []

end Event

inductive Phase (cfg : Config)
  | idle
  | asked (data : Msg cfg) (atBack : Bool)
  | entered
  | waiting
  | got (data : Msg cfg)

namespace Phase

/-- A put returns 0 if and only if its message was accepted, and a get if and only if it has
received the one that is in its buffer. -/
def on : Phase cfg → Event cfg τ → Option (Phase cfg)
  | .idle, .called _ (.put data atBack) => some (.asked data atBack)
  | .idle, .called _ .get => some .waiting
  | .idle, .peeked .. | .idle, .purged _ => some .idle
  | .asked data atBack, .accepted _ data' atBack' =>
    if data' = data ∧ atBack' = atBack then some .entered else none
  | .asked .., .returned _ value _ => if value ≠ 0 then some .idle else none
  | .entered, .returned _ value _ => if value = 0 then some .idle else none
  | .waiting, .received _ data => some (.got data)
  | .waiting, .returned _ value _ => if value ≠ 0 then some .idle else none
  | .got data, .returned _ value data' => if value = 0 ∧ data' = data then some .idle else none
  | _, _ => none

section On

variable {t : τ} {data data' : Msg cfg} {atBack : Bool} {value : ℤ}

@[simp] theorem on_put : on .idle (.called t (.put data atBack)) = some (.asked data atBack) := rfl

@[simp] theorem on_get : on .idle (.called t (.get : Call cfg)) = some .waiting := rfl

@[simp] theorem on_accepted :
    (asked data atBack).on (.accepted t data atBack) = some .entered := if_pos ⟨rfl, rfl⟩

@[simp] theorem on_refused (h : value ≠ 0) :
    (asked data atBack).on (.returned t value data') = some .idle := if_pos h

@[simp] theorem on_done : entered.on (.returned t 0 data) = some .idle := rfl

@[simp] theorem on_received : waiting.on (.received t data) = some (.got data) := rfl

@[simp] theorem on_missed (h : value ≠ 0) :
    waiting.on (.returned t value data) = some .idle := if_pos h

@[simp] theorem on_got : (got data).on (.returned t 0 data) = some .idle := if_pos ⟨rfl, rfl⟩

@[simp] theorem on_peeked : on .idle (.peeked t i d) = some .idle := rfl

@[simp] theorem on_purged : on .idle (.purged t : Event cfg τ) = some .idle := rfl

end On

end Phase

namespace State

variable (s : State cfg τ)

/-- The slots that a put cannot have: those in use, and the one that a get offers to the first
thread that waits. -/
def occupied : ℕ :=
  match s.lock with
  | some (_, .handOff _) => s.usedMsgs + 1
  | _ => s.usedMsgs

def phase (thread : τ) : Phase cfg :=
  match s.pc thread with
  | .outside => .idle
  | .put => if s.sched.swapRetval thread = 0 then .entered else .asked (s.data thread) true
  | .get => if s.sched.swapRetval thread = 0 then .got (s.data thread) else .waiting
  | .inside =>
    match s.lock with
    | some (_, .handOff data) => .got data
    | _ => .idle

/-- Only writers wait if no slot is free, only readers if none is in use, and else nobody. -/
structure Waits : Prop where
  order : s.sched.InOrder
  waiting : ∀ t, s.sched.pendedOn t = some () → s.sched.swapRetval t ≠ 0 ∧
    (s.pc t = .put ∧ s.occupied = cfg.maxMsgs ∨ s.pc t = .get ∧ s.occupied = 0)
  holder : ∀ t, s.pc t = .inside ↔ ∃ place, s.lock = some (t, place)

end State

variable {s s' : State cfg τ} {t u : τ} {es : List (Event cfg τ)} {data : Msg cfg}

namespace State.Waits

theorem init {prio : τ → ℤ} {mem : Memory} {data : τ → Msg cfg} :
    (State.init prio mem data).Waits :=
  ⟨.init prio, by simp [State.init, WaitQs.init], by simp [State.init]⟩

theorem not_pended (h : s.Waits) (hp : s.pc t = .outside ∨ s.pc t = .inside) :
    s.sched.pendedOn t = none := by
  refine Option.eq_none_iff_forall_ne_some.2 fun q hq => ?_
  obtain ⟨-, ⟨hpc, -⟩ | ⟨hpc, -⟩⟩ := h.waiting t hq <;> simp [hpc] at hp

theorem none_pended (h : s.Waits) (hq : s.sched.waitq () = []) (t : τ) :
    s.sched.pendedOn t ≠ some () := by
  rw [Ne, ← h.order.mem_iff, hq]
  exact List.not_mem_nil

theorem head_pended (h : s.Waits) (hq : s.sched.waitq () = u :: l) :
    s.sched.pendedOn u = some () := (h.order.head hq).1

theorem sub (h : s.Waits) (ho : s'.sched.InOrder)
    (hw : ∀ t, s'.sched.pendedOn t = some () → s.sched.pendedOn t = some () ∧
      s'.sched.swapRetval t = s.sched.swapRetval t ∧ s'.pc t = s.pc t ∧ s'.occupied = s.occupied)
    (hh : ∀ t, s'.pc t = .inside ↔ ∃ place, s'.lock = some (t, place)) : s'.Waits := by
  refine ⟨ho, fun t ht => ?_, hh⟩
  obtain ⟨hp, hr, hpc, hocc⟩ := hw t ht
  rw [hr, hpc, hocc]
  exact h.waiting t hp

variable [DecidableEq τ]

theorem holder_enter (h : s.Waits) (hfree : s.lock = none) (u : τ) :
    update s.pc t .inside u = .inside ↔ ∃ place', some (t, place) = some (u, place') := by
  obtain rfl | hne := eq_or_ne u t
  · simp
  · simp [hne, hne.symm, h.holder, hfree]

theorem holder_leave {place : Section cfg} (h : s.Waits) (hl : s.lock = some (t, place)) (u : τ) :
    update s.pc t .outside u = .inside ↔
      ∃ place', (none : Option (τ × Section cfg)) = some (u, place') := by
  obtain rfl | hne := eq_or_ne u t
  · simp
  · simp [hne, hne.symm, h.holder, hl]

theorem holder_wait {pc : Pc} (h : s.Waits) (hp : s.pc t ≠ .inside) (hpc : pc ≠ .inside) (u : τ) :
    update s.pc t pc u = .inside ↔ ∃ place, s.lock = some (u, place) := by
  obtain rfl | hne := eq_or_ne u t
  · simpa [hpc, h.holder] using hp
  · simp [hne, h.holder]

theorem wake (h : s.Waits) (u : τ) (v : ℤ) :
    { s with sched := s.sched.wake u v, data := d }.Waits := by
  refine h.sub (h.order.wake v) (fun t ht => ?_) h.holder
  obtain rfl | hne := eq_or_ne t u
  · simp at ht
  · exact ⟨by simpa [hne] using ht, by simp [hne], rfl, rfl⟩

theorem pendCurr {pc : Pc} {w : KTimeout} (h : s.Waits) (hp : s.pc t = .outside)
    (hpc : pc = .put ∧ s.occupied = cfg.maxMsgs ∨ pc = .get ∧ s.occupied = 0) :
    (s.pendCurr t pc data w).Waits := by
  refine ⟨h.order.pendLocked (h.not_pended (.inl hp)), fun u hu => ?_, ?_⟩
  · obtain rfl | hne := eq_or_ne u t
    · refine ⟨by simp [State.pendCurr, eagain], ?_⟩
      simp only [State.pendCurr, update_self]
      exact hpc
    · simp only [State.pendCurr, WaitQs.pendLocked_pendedOn, WaitQs.pendLocked_swapRetval,
        update_of_ne hne] at hu ⊢
      exact h.waiting u hu
  · refine h.holder_wait (by simp [hp]) ?_
    rintro rfl
    simp at hpc

theorem move {a : Action cfg τ} (h : s.Waits) (hu : s.usedMsgs ≤ cfg.maxMsgs)
    (hm : Move s a s' es) : s'.Waits := by
  cases hm with
  | handed => exact h.wake _ _
  | stored hpc hfree hlt hq =>
    refine h.sub ?_ (fun u hu => ?_) ?_
    · split <;> exact h.order
    · refine absurd ?_ (h.none_pended hq u)
      revert hu
      split <;> exact fun hu => hu
    · split <;> exact h.holder
  | full => exact h
  | waitPut hpc hfree hle => exact h.pendCurr hpc (.inl ⟨rfl, by simp [occupied, hfree]; omega⟩)
  | take hpc hfree hn =>
    refine h.sub h.order (fun u hu => ⟨hu, rfl, ?_, by simp [occupied, hfree, hn]⟩)
      (h.holder_enter hfree)
    refine update_of_ne ?_ _ _
    rintro rfl
    simp [h.not_pended (.inl hpc)] at hu
  | empty => exact h
  | waitGet hpc hfree hn => exact h.pendCurr hpc (.inr ⟨rfl, by simp [occupied, hfree, hn]⟩)
  | peek => exact h
  | peekAt => exact h
  | purge hpc hfree =>
    refine h.sub h.order (fun u hu => ⟨hu, rfl, ?_, by simp [occupied, hfree]⟩)
      (h.holder_enter hfree)
    refine update_of_ne ?_ _ _
    rintro rfl
    simp [h.not_pended (.inl hpc)] at hu
  | @refill _ t u l data hpc hlock hq =>
    refine (h.wake (d := s.data) u 0).sub (h.order.wake 0)
      (fun v hv => ⟨hv, rfl, ?_, by simp [occupied, State.leave, State.writeBack, hlock]⟩)
      (h.holder_leave hlock)
    refine update_of_ne ?_ _ _
    rintro rfl
    exact absurd (((h.wake (d := s.data) u 0).not_pended (.inr hpc)).symm.trans hv) (by simp)
  | noWriter hpc hlock hq =>
    exact h.sub h.order (fun u hu => absurd hu (h.none_pended hq u)) (h.holder_leave hlock)
  | purgeOne => exact h.wake _ _
  | purged hpc hlock hq =>
    exact h.sub h.order (fun u hu => absurd hu (h.none_pended hq u)) (h.holder_leave hlock)
  | resume hpc hp =>
    refine h.sub h.order (fun u hu => ⟨hu, rfl, ?_, rfl⟩) (h.holder_wait (by aesop) (by simp))
    refine update_of_ne ?_ _ _
    rintro rfl
    simp [hp] at hu
  | expire hs =>
    obtain ⟨hp, hr⟩ := WaitQs.expire_fields hs
    exact h.sub (h.order.expire hs) (fun u hu => ⟨hp ▸ hu, congrFun hr u, rfl, rfl⟩) h.holder
  | @timeout _ t _ hs =>
    obtain ⟨hp, hr⟩ := WaitQs.timeout_fields hs
    refine h.sub (h.order.zThreadTimeout hs) (fun u hu => ⟨?_, congrFun hr u, rfl, rfl⟩) h.holder
    simp only [hp] at hu
    obtain rfl | hne := eq_or_ne u t
    · simp at hu
    · simpa [hne] using hu

end State.Waits

end ZephyrRtos.Msgq
