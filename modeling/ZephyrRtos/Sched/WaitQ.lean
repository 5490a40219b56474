import ZephyrRtos.Sched.PriorityQ

/-! `kernel/sched.c`: threads pend on wait queues until another thread or a timeout wakes them. -/

namespace ZephyrRtos.Sched

open List Function

inductive KTimeout
  | noWait
  | ticks
  | forever
  deriving DecidableEq

/-- Where the timeout of a thread is. An expired one is out of the timeout queue before its
handler gets the scheduler's lock. -/
inductive ThreadTimeout
  | inactive
  | armed
  | inflight
  deriving DecidableEq

def eagain : ℤ := 11

/-- The scheduler's side of the threads `τ` and of the wait queues of the objects `ω`. The last
two fields are history: when a thread last entered its queue. -/
structure WaitQs (ω τ : Type) where
  prio : τ → ℤ
  waitq : ω → List τ
  pendedOn : τ → Option ω
  timeout : τ → ThreadTimeout
  swapRetval : τ → ℤ
  since : τ → ℕ
  clock : ℕ

namespace WaitQs

variable {ω τ : Type}

def init (prio : τ → ℤ) : WaitQs ω τ where
  prio
  waitq _ := []
  pendedOn _ := none
  timeout _ := .inactive
  swapRetval _ := 0
  since _ := 0
  clock := 0

def isThreadPending (s : WaitQs ω τ) (thread : τ) : Bool := (s.pendedOn thread).isSome

variable [DecidableEq ω] [DecidableEq τ]

def priqWaitAdd (s : WaitQs ω τ) (thread : τ) (waitq : ω) : WaitQs ω τ :=
  { s with
    waitq := update s.waitq waitq (zPriqSimpleAdd s.prio thread (s.waitq waitq))
    since := update s.since thread s.clock
    clock := s.clock + 1 }

def priqWaitRemove (s : WaitQs ω τ) (thread : τ) (waitq : ω) : WaitQs ω τ :=
  { s with waitq := update s.waitq waitq (zPriqSimpleRemove (s.waitq waitq) thread) }

/-- The thread goes to sleep with the return value it has if nobody sets another. -/
def pendLocked (s : WaitQs ω τ) (thread : τ) (waitq : ω) (timeout : KTimeout) : WaitQs ω τ :=
  let s := s.priqWaitAdd thread waitq
  { s with
    pendedOn := update s.pendedOn thread (some waitq)
    timeout := update s.timeout thread (if timeout = .forever then .inactive else .armed)
    swapRetval := update s.swapRetval thread (-eagain) }

def unpendThreadNoTimeout (s : WaitQs ω τ) (thread : τ) : WaitQs ω τ :=
  match s.pendedOn thread with
  | none => s
  | some waitq =>
    let s := s.priqWaitRemove thread waitq
    { s with pendedOn := update s.pendedOn thread none }

/-- The abort supersedes a handler that is in flight. -/
def tryAbortThreadTimeout (s : WaitQs ω τ) (thread : τ) : WaitQs ω τ :=
  { s with timeout := update s.timeout thread .inactive }

def zUnpendFirstThreadLocked (s : WaitQs ω τ) (waitq : ω) : Option τ × WaitQs ω τ :=
  match zPriqSimpleBest (s.waitq waitq) with
  | none => (none, s)
  | some thread => (some thread, (s.unpendThreadNoTimeout thread).tryAbortThreadTimeout thread)

def threadReturnValueSet (s : WaitQs ω τ) (thread : τ) (value : ℤ) : WaitQs ω τ :=
  { s with swapRetval := update s.swapRetval thread value }

def wake (s : WaitQs ω τ) (thread : τ) (value : ℤ) : WaitQs ω τ :=
  ((s.unpendThreadNoTimeout thread).tryAbortThreadTimeout thread).threadReturnValueSet thread value

def expire (s : WaitQs ω τ) (thread : τ) : Option (WaitQs ω τ) :=
  if s.timeout thread = .armed then
    some { s with timeout := update s.timeout thread .inflight }
  else none

/-- The handler of a timeout that was not superseded. -/
def zThreadTimeout (s : WaitQs ω τ) (thread : τ) : Option (WaitQs ω τ) :=
  if s.timeout thread = .inflight then
    some ((s.unpendThreadNoTimeout thread).tryAbortThreadTimeout thread)
  else none

def zThreadPrioSet (s : WaitQs ω τ) (thread : τ) (prio : ℤ) : WaitQs ω τ :=
  match s.pendedOn thread with
  | none => { s with prio := update s.prio thread prio }
  | some waitq =>
    let s := s.priqWaitRemove thread waitq
    { s with prio := update s.prio thread prio }.priqWaitAdd thread waitq

section Fields

variable (s : WaitQs ω τ) (t : τ) (q : ω) (p : ℤ)

@[simp] theorem unpend_prio : (s.unpendThreadNoTimeout t).prio = s.prio := by
  rw [unpendThreadNoTimeout]; split <;> rfl

@[simp] theorem unpend_since : (s.unpendThreadNoTimeout t).since = s.since := by
  rw [unpendThreadNoTimeout]; split <;> rfl

@[simp] theorem unpend_clock : (s.unpendThreadNoTimeout t).clock = s.clock := by
  rw [unpendThreadNoTimeout]; split <;> rfl

@[simp] theorem unpend_swapRetval : (s.unpendThreadNoTimeout t).swapRetval = s.swapRetval := by
  rw [unpendThreadNoTimeout]; split <;> rfl

@[simp] theorem unpend_pendedOn :
    (s.unpendThreadNoTimeout t).pendedOn = update s.pendedOn t none := by
  rw [unpendThreadNoTimeout]
  split
  · next h => rw [← h, update_eq_self]
  · rfl

@[simp] theorem prioSet_prio : (s.zThreadPrioSet t p).prio = update s.prio t p := by
  rw [zThreadPrioSet]; split <;> rfl

@[simp] theorem prioSet_pendedOn : (s.zThreadPrioSet t p).pendedOn = s.pendedOn := by
  rw [zThreadPrioSet]; split <;> rfl

@[simp] theorem prioSet_retval : (s.zThreadPrioSet t p).swapRetval = s.swapRetval := by
  rw [zThreadPrioSet]; split <;> rfl

variable (v : ℤ)

@[simp] theorem wake_pendedOn : (s.wake t v).pendedOn = update s.pendedOn t none :=
  s.unpend_pendedOn t

@[simp] theorem wake_swapRetval : (s.wake t v).swapRetval = update s.swapRetval t v := by
  simp [wake, threadReturnValueSet, tryAbortThreadTimeout]

@[simp] theorem pendLocked_pendedOn (w : KTimeout) :
    (s.pendLocked t q w).pendedOn = update s.pendedOn t (some q) := rfl

@[simp] theorem pendLocked_swapRetval (w : KTimeout) :
    (s.pendLocked t q w).swapRetval = update s.swapRetval t (-eagain) := rfl

end Fields

section Cases

variable {s s' : WaitQs ω τ} {t : τ} {q : ω} {l : List τ}

theorem unpend_nil (h : s.waitq q = []) : s.zUnpendFirstThreadLocked q = (none, s) := by
  simp [zUnpendFirstThreadLocked, zPriqSimpleBest, h]

theorem unpend_cons (h : s.waitq q = t :: l) : s.zUnpendFirstThreadLocked q =
    (some t, (s.unpendThreadNoTimeout t).tryAbortThreadTimeout t) := by
  simp [zUnpendFirstThreadLocked, zPriqSimpleBest, h]

theorem expire_fields (h : s.expire t = some s') :
    s'.pendedOn = s.pendedOn ∧ s'.swapRetval = s.swapRetval := by
  obtain ⟨-, rfl⟩ := by simpa [expire] using h
  exact ⟨rfl, rfl⟩

theorem timeout_fields (h : s.zThreadTimeout t = some s') :
    s'.pendedOn = update s.pendedOn t none ∧ s'.swapRetval = s.swapRetval := by
  obtain ⟨-, rfl⟩ := by simpa [zThreadTimeout] using h
  exact ⟨s.unpend_pendedOn t, s.unpend_swapRetval t⟩

end Cases

section Order

omit [DecidableEq ω] [DecidableEq τ]

variable {s : WaitQs ω τ} {prio : τ → ℤ} {t u : τ} {q : ω} {l : List τ} {p : ℤ}

theorem mem_simpleAdd : u ∈ zPriqSimpleAdd prio t l ↔ u = t ∨ u ∈ l := by
  induction l with
  | nil => simp [zPriqSimpleAdd]
  | cons v l ih =>
    rw [zPriqSimpleAdd]
    split
    · simp
    · rw [mem_cons, mem_cons]
      tauto

theorem pairwise_simpleAdd (hl : l.Pairwise r) (hle : ∀ u v, r u v → prio u ≤ prio v)
    (hlt : ∀ u ∈ l, prio t < prio u → r t u) (hge : ∀ u ∈ l, prio u ≤ prio t → r u t) :
    (zPriqSimpleAdd prio t l).Pairwise r := by
  induction l with
  | nil => simp [zPriqSimpleAdd]
  | cons v l ih =>
    obtain ⟨hv, hl⟩ := pairwise_cons.1 hl
    simp only [zPriqSimpleAdd, prioCmp_pos]
    split
    · next h =>
      refine pairwise_cons.2 ⟨fun u hu => ?_, pairwise_cons.2 ⟨hv, hl⟩⟩
      obtain rfl | hu' := mem_cons.1 hu
      · exact hlt u hu h
      · exact hlt u hu (h.trans_le (hle _ _ (hv u hu')))
    · next h =>
      refine pairwise_cons.2 ⟨fun u hu => ?_, ih hl (fun u hu => hlt u (.tail _ hu))
        fun u hu => hge u (.tail _ hu)⟩
      obtain rfl | hu := mem_simpleAdd.1 hu
      · exact hge v (.head _) (not_lt.1 h)
      · exact hv u hu

/-- `t` is served before `u`: by priority, then by how long they have waited with it. -/
def Before (s : WaitQs ω τ) (t u : τ) : Prop :=
  s.prio t < s.prio u ∨ s.prio t = s.prio u ∧ s.since t < s.since u

theorem Before.prio_le (h : s.Before t u) : s.prio t ≤ s.prio u := h.elim le_of_lt fun h => h.1.le

theorem Before.ne (h : s.Before t u) : t ≠ u := by
  rintro rfl
  exact h.elim (lt_irrefl _) fun h => lt_irrefl _ h.2

/-- The wait queues hold the threads that pend on them, in the order in which they are served. -/
structure InOrder (s : WaitQs ω τ) : Prop where
  mem_iff : ∀ t q, t ∈ s.waitq q ↔ s.pendedOn t = some q
  ordered : ∀ q, (s.waitq q).Pairwise s.Before
  recent : ∀ t q, s.pendedOn t = some q → s.since t < s.clock

namespace InOrder

theorem init (prio : τ → ℤ) : (init prio : WaitQs ω τ).InOrder :=
  ⟨by simp [WaitQs.init], by simp [WaitQs.init], by simp [WaitQs.init]⟩

theorem nodup (h : s.InOrder) (q : ω) : (s.waitq q).Nodup := (h.ordered q).imp Before.ne

theorem head (h : s.InOrder) (hq : s.waitq q = t :: l) :
    s.pendedOn t = some q ∧ ∀ u, s.pendedOn u = some q → u ≠ t → s.Before t u := by
  refine ⟨(h.mem_iff t q).1 (by simp [hq]), fun u hu hne => ?_⟩
  have hord := h.ordered q
  have hmem := (h.mem_iff u q).2 hu
  rw [hq] at hord hmem
  exact (pairwise_cons.1 hord).1 u ((mem_cons.1 hmem).resolve_left hne)

variable [DecidableEq ω] [DecidableEq τ]

theorem setPrio (h : s.InOrder) (ht : s.pendedOn t = none) :
    { s with prio := update s.prio t p }.InOrder := by
  have hne : ∀ {u q}, u ∈ s.waitq q → u ≠ t := by
    rintro u q hu rfl
    simp [(h.mem_iff u q).1 hu] at ht
  refine ⟨h.mem_iff, fun q => (h.ordered q).imp_of_mem fun hu hv hb => ?_, h.recent⟩
  simpa only [Before, update_of_ne (hne hu), update_of_ne (hne hv)] using hb

theorem leave (h : s.InOrder) : (s.unpendThreadNoTimeout t).InOrder := by
  rw [unpendThreadNoTimeout]
  split
  · exact h
  next q hq =>
  constructor
  · intro u q'
    simp only [priqWaitRemove, zPriqSimpleRemove]
    obtain rfl | hq' := eq_or_ne q' q
    · rw [update_self, (h.nodup q').mem_erase_iff, h.mem_iff]
      obtain rfl | hu := eq_or_ne u t
      · simp
      · simp [hu]
    · rw [update_of_ne hq', h.mem_iff]
      obtain rfl | hu := eq_or_ne u t
      · simp [hq, hq'.symm]
      · simp [hu]
  · intro q'
    simp only [priqWaitRemove]
    obtain rfl | hq' := eq_or_ne q' q
    · rw [update_self]
      exact (h.ordered q').sublist erase_sublist
    · rw [update_of_ne hq']
      exact h.ordered q'
  · intro u q' hu
    obtain rfl | hne := eq_or_ne u t
    · simp at hu
    · exact h.recent u q' (by simpa [priqWaitRemove, hne] using hu)

theorem join (h : s.InOrder) (ht : s.pendedOn t = none)
    (hf : f = update s.pendedOn t (some q)) :
    { s.priqWaitAdd t q with pendedOn := f }.InOrder := by
  subst hf
  have hne : ∀ {u q'}, u ∈ s.waitq q' → u ≠ t := by
    rintro u q' hu rfl
    simp [(h.mem_iff u q').1 hu] at ht
  constructor
  · intro u q'
    simp only [priqWaitAdd]
    obtain rfl | hq := eq_or_ne q' q
    · rw [update_self, mem_simpleAdd, h.mem_iff]
      obtain rfl | hu := eq_or_ne u t
      · simp
      · simp [hu]
    · rw [update_of_ne hq, h.mem_iff]
      obtain rfl | hu := eq_or_ne u t
      · simp [ht, hq.symm]
      · simp [hu]
  · intro q'
    have hold : (s.waitq q').Pairwise (s.priqWaitAdd t q).Before :=
      (h.ordered q').imp_of_mem fun hu hv hb => by
        simpa only [Before, priqWaitAdd, update_of_ne (hne hu), update_of_ne (hne hv)] using hb
    simp only [priqWaitAdd] at hold ⊢
    obtain rfl | hq := eq_or_ne q' q
    · rw [update_self]
      refine pairwise_simpleAdd hold (fun u v => Before.prio_le) (fun u hu => .inl)
        fun u hu hle => ?_
      obtain hlt | heq := hle.lt_or_eq
      · exact .inl hlt
      · refine .inr ⟨heq, ?_⟩
        simpa [hne hu] using h.recent u q' ((h.mem_iff u q').1 hu)
    · rwa [update_of_ne hq]
  · intro u q' hu
    simp only [priqWaitAdd]
    obtain rfl | hne := eq_or_ne u t
    · simp
    · rw [update_of_ne hne]
      exact (h.recent u q' (by simpa [hne] using hu)).trans (Nat.lt_succ_self _)

theorem pendLocked {timeout : KTimeout} (h : s.InOrder) (ht : s.pendedOn t = none) :
    (s.pendLocked t q timeout).InOrder :=
  have h' := h.join (q := q) ht rfl
  ⟨h'.mem_iff, h'.ordered, h'.recent⟩

theorem zThreadPrioSet (h : s.InOrder) : (s.zThreadPrioSet t p).InOrder := by
  rw [WaitQs.zThreadPrioSet]
  cases hq : s.pendedOn t with
  | none => exact h.setPrio hq
  | some q =>
    have hleft := h.leave (t := t)
    have hback := (hleft.setPrio (t := t) (p := p) (by simp)).join (t := t) (q := q)
      (f := s.pendedOn) (by simp) (by simp [← hq])
    simp only [unpendThreadNoTimeout, hq] at hback
    exact hback

theorem zThreadTimeout (h : s.InOrder) (hs : s.zThreadTimeout t = some s') : s'.InOrder := by
  obtain ⟨-, rfl⟩ := by simpa [WaitQs.zThreadTimeout] using hs
  have h' := h.leave (t := t)
  exact ⟨h'.mem_iff, h'.ordered, h'.recent⟩

theorem expire (h : s.InOrder) (hs : s.expire t = some s') : s'.InOrder := by
  obtain ⟨-, rfl⟩ := by simpa [WaitQs.expire] using hs
  exact ⟨h.mem_iff, h.ordered, h.recent⟩

theorem wake (h : s.InOrder) (v : ℤ) : (s.wake t v).InOrder :=
  have h' := h.leave (t := t)
  ⟨h'.mem_iff, h'.ordered, h'.recent⟩

end InOrder

end Order

end WaitQs

end ZephyrRtos.Sched
