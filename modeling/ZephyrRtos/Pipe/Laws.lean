import ZephyrRtos.Pipe.Moves
import ZephyrRtos.Sys.RingBuf

namespace ZephyrRtos.Pipe

open Function Lib Sched Sys

variable {cfg : Config} {τ : Type}

namespace State

variable (s : State cfg τ)

def ring : List UInt8 := s.buf.contents

def NonePended (queue : Queue) : Prop := ∀ u, s.sched.pendedOn u ≠ some queue

def AtPlace (thread : τ) : Section → Prop
  | .top => True
  | .wakeReaders => (s.call thread).kind = .write
  | .copy => (s.call thread).kind = .write ∧ s.ring = []
  | .copied => (s.call thread).kind = .write ∧
    ((s.call thread).used < (s.call thread).len → s.NonePended .data)
  | .fill => (s.call thread).kind = .write ∧ s.NonePended .data
  | .wakeWriters => (s.call thread).kind = .read
  | .drain => (s.call thread).kind = .read ∧ s.NonePended .space
  | .waitFor => (s.call thread).used < (s.call thread).len ∧
    ((s.call thread).kind = .write → s.ring.length = s.buf.size) ∧
    ((s.call thread).kind = .read → s.ring = [])

/-- A thread that is in a wait queue waits for what its call is about, with bytes left. -/
structure Pends (thread : τ) (queue : Queue) : Prop where
  pc : s.pc thread = .waiting
  queue : (s.call thread).kind.queue = queue
  left : (s.call thread).used < (s.call thread).len
  retval : s.sched.swapRetval thread = -eagain

structure Threads : Prop where
  order : s.sched.InOrder
  holder : ∀ t, s.pc t = .inside ↔ ∃ place, s.lock = some (t, place)
  pends : ∀ t q, s.sched.pendedOn t = some q → s.Pends t q
  count : ∃ W : Finset τ, (∀ t, t ∈ W ↔ s.pc t = .waiting) ∧ s.waiting = W.card
  lens : ∀ t, s.pc t ≠ .outside → (s.call t).used ≤ (s.call t).len ∧ ((s.call t).len : ℤ) ≤ int32Max
  retval : ∀ t, s.pc t = .waiting → s.sched.swapRetval t = 0 ∨ s.sched.swapRetval t = -eagain

/-- Readers wait only if the ring is empty and writers only if it is full. -/
structure Wf : Prop extends s.Threads where
  holds : s.buf.Holds s.ring
  empty : ∀ t, s.sched.pendedOn t = some .data → s.ring = []
  full : ∀ t, s.sched.pendedOn t = some .space → s.ring.length = s.buf.size
  place : ∀ t place, s.lock = some (t, place) → s.AtPlace t place

end State

variable {s s' : State cfg τ} {t u : τ} {place place' : Section} {q : Queue}
  {es : List (Event τ)} {n : ℕ} {buf : RingBuf cfg.idxBits} {data : Memory}

namespace State

theorem AtPlace.mono (h : s.AtPlace t place) (hb : s'.buf = s.buf) (hc : s'.call t = s.call t)
    (hp : ∀ q, s.NonePended q → s'.NonePended q) : s'.AtPlace t place := by
  cases place <;> simp only [AtPlace, ring, hb, hc] at h ⊢
  case copied => exact h.imp_right fun hn hlt => hp _ (hn hlt)
  case fill => exact h.imp_right (hp _)
  case drain => exact h.imp_right (hp _)
  all_goals exact h

theorem Pends.of_eq (h : s.Pends t q) (hpc : s'.pc t = s.pc t) (hc : s'.call t = s.call t)
    (hr : s'.sched.swapRetval t = s.sched.swapRetval t) : s'.Pends t q :=
  ⟨hpc.trans h.pc, by rw [hc, h.queue], by rw [hc]; exact h.left, hr.trans h.retval⟩

theorem Threads.none_pended (h : s.Threads) (hq : s.sched.waitq q = []) : s.NonePended q := by
  intro u
  rw [Ne, ← h.order.mem_iff, hq]
  exact List.not_mem_nil

theorem Threads.not_pended (h : s.Threads) (hpc : s.pc t ≠ .waiting) :
    s.sched.pendedOn t = none :=
  Option.eq_none_iff_forall_ne_some.2 fun q hq => hpc (h.pends t q hq).pc

section

variable (h : s.Threads) (hl : s.lock = some (t, place))
include h hl

theorem Threads.inside : s.pc t = .inside := (h.holder t).2 ⟨place, hl⟩

theorem Threads.used_le : (s.call t).used ≤ (s.call t).len := (h.lens t (by simp [h.inside hl])).1

theorem Threads.len_le : ((s.call t).len : ℤ) ≤ int32Max := (h.lens t (by simp [h.inside hl])).2

end

theorem Wf.pipeEmpty (h : s.Wf) : s.pipeEmpty ↔ s.ring = [] := h.holds.isEmpty

theorem Wf.pipeFull (h : s.Wf) : s.pipeFull ↔ s.ring.length = s.buf.size := by
  have := h.holds.length_le
  rw [State.pipeFull, decide_eq_true_eq, h.holds.spaceGet]
  omega

theorem Wf.init {prio : τ → ℤ} {call : τ → Call}
    (hh : (RingBuf.init buffer size : RingBuf cfg.idxBits).Holds []) :
    (State.init prio buffer size call : State cfg τ).Wf := by
  refine ⟨⟨.init prio, ?_, ?_, ⟨∅, ?_, rfl⟩, ?_, ?_⟩, ?_, ?_, ?_, ?_⟩
  case refine_6 => rwa [ring, State.init, hh.contents]
  all_goals simp [State.init, WaitQs.init]

theorem Wf.goes (h : s.Wf) (hl : s.lock = some (t, place)) (hg : Goes s t place place') :
    s.AtPlace t place' := by
  have hp := h.place t place hl
  cases hg with
  | wakeReaders hk => exact hk
  | copy hk he => exact ⟨hk, h.pipeEmpty.1 he⟩
  | alone hk hw =>
    refine ⟨hk, fun u hu => ?_⟩
    obtain ⟨W, hW, hcard⟩ := h.count
    have hmem := (hW u).2 (h.pends u _ hu).pc
    rw [Finset.card_eq_zero.1 (hcard.symm.trans hw)] at hmem
    exact absurd hmem (Finset.notMem_empty u)
  | behind hk he => exact ⟨hk, fun u hu => he (h.pipeEmpty.2 (h.empty u hu))⟩
  | wakeWriters hk => exact hk
  | ahead hk hf => exact ⟨hk, fun u hu => hf (h.pipeFull.2 (h.full u hu))⟩
  | woken hq => exact ⟨hp, h.none_pended hq⟩
  | noReader hq => exact ⟨hp.1, fun _ => h.none_pended hq⟩
  | rest hlt => exact ⟨hp.1, hp.2 hlt⟩
  | room hq => exact ⟨hp, h.none_pended hq⟩

theorem Threads.stay (h : s.Threads) (hl : s.lock = some (t, place)) :
    (s.stay t place').Threads where
  order := h.order
  holder u := by
    rw [State.stay, h.holder u, hl]
    simp
  pends u q hu := (h.pends u q hu).of_eq rfl rfl rfl
  count := h.count
  lens := h.lens
  retval := h.retval

theorem Wf.stay (h : s.Wf) (hl : s.lock = some (t, place)) (hp : s.AtPlace t place') :
    (s.stay t place').Wf where
  toThreads := h.toThreads.stay hl
  holds := h.holds
  empty := h.empty
  full := h.full
  place u place'' hu := by
    cases hu
    exact hp.mono rfl rfl fun _ => id

variable [DecidableEq τ]

theorem Wf.sub {sched : WaitQs Queue τ} (h : s.Wf) (ho : sched.InOrder)
    (hp : ∀ t q, sched.pendedOn t = some q → s.sched.pendedOn t = some q ∧
      sched.swapRetval t = s.sched.swapRetval t)
    (hr : ∀ t, sched.swapRetval t = 0 ∨ sched.swapRetval t = s.sched.swapRetval t) :
    { s with sched }.Wf := by
  refine ⟨⟨ho, h.holder, fun t q ht => ?_, h.count, h.lens, fun t ht => ?_⟩, h.holds,
    fun t ht => h.empty t (hp _ _ ht).1, fun t ht => h.full t (hp _ _ ht).1, fun t place hl =>
      (h.place t place hl).mono rfl rfl fun q hq v hv => hq v (hp _ _ hv).1⟩
  · exact (h.pends t q (hp t q ht).1).of_eq rfl rfl (hp t q ht).2
  · obtain hzero | hsame := hr t
    · exact .inl hzero
    · simpa only [hsame] using h.retval t ht

theorem Wf.wake (h : s.Wf) (u : τ) : { s with sched := s.sched.wake u 0 }.Wf := by
  refine h.sub (h.order.wake 0) (fun t q ht => ?_) fun t => ?_
  · obtain rfl | hne := eq_or_ne t u
    · simp at ht
    · exact ⟨by simpa [hne] using ht, by simp [hne]⟩
  · obtain rfl | hne := eq_or_ne t u
    · exact .inl (by simp)
    · exact .inr (by simp [hne])

theorem Threads.others (h : s.Threads) (t : τ) :
    ∃ W : Finset τ, (∀ u, u ∈ W ↔ s.pc u = .waiting ∧ u ≠ t) ∧
      W.card = if s.pc t = .waiting then s.waiting - 1 else s.waiting := by
  obtain ⟨W, hW, hcard⟩ := h.count
  refine ⟨W.erase t, fun u => by rw [Finset.mem_erase, hW, and_comm], ?_⟩
  simp only [Finset.card_erase_eq_ite, hW, hcard]

theorem Wf.leave (h : s.Wf) (hp : s.sched.pendedOn t = none) (hin : ∀ u, u ≠ t → s.pc u ≠ .inside)
    (hk : k = if s.pc t = .waiting then s.waiting - 1 else s.waiting) :
    ({ s with waiting := k }.leave t).Wf := by
  have hne : ∀ {u q}, s.sched.pendedOn u = some q → u ≠ t := by
    rintro u q hu rfl
    simp [hp] at hu
  refine ⟨⟨h.order, fun u => ?_, fun u q hu => ?_, ?_, fun u hu => ?_, fun u hu => ?_⟩, h.holds,
    h.empty, h.full, by simp [State.leave]⟩
  · obtain rfl | hut := eq_or_ne u t
    · simp [State.leave]
    · simp [State.leave, hut, hin u hut]
  · exact (h.pends u q hu).of_eq (update_of_ne (hne hu) _ _) rfl rfl
  · obtain ⟨W, hW, hcard⟩ := h.others t
    refine ⟨W, fun u => ?_, hk.trans hcard.symm⟩
    obtain rfl | hut := eq_or_ne u t
    · simp [State.leave, hW]
    · simp [State.leave, hut, hW]
  · obtain rfl | hut := eq_or_ne u t
    · simp [State.leave] at hu
    · exact h.lens u (by simpa [State.leave, hut] using hu)
  · obtain rfl | hut := eq_or_ne u t
    · simp [State.leave] at hu
    · exact h.retval u (by simpa [State.leave, hut] using hu)

theorem Wf.release (h : s.Wf) (hl : s.lock = some (t, place)) : (s.leave t).Wf := by
  have hin := h.inside hl
  refine h.leave (h.not_pended (by simp [hin])) (fun u hut hu => hut ?_) (by simp [hin])
  obtain ⟨place', hl'⟩ := (h.holder u).1 hu
  exact (Prod.mk.inj (Option.some.inj (hl.symm.trans hl'))).1.symm

theorem Threads.setCall (h : s.Threads) (hk : c.kind = (s.call t).kind)
    (hlen : c.len = (s.call t).len) (hle : c.used ≤ c.len)
    (hlt : ∀ q, s.sched.pendedOn t = some q → c.used < c.len) : (s.setCall t c).Threads := by
  refine ⟨h.order, h.holder, fun u q hp => ?_, h.count, fun u hpc => ?_, h.retval⟩
  · have hpu := h.pends u q hp
    obtain rfl | hut := eq_or_ne u t
    · refine ⟨hpu.pc, ?_, ?_, hpu.retval⟩
      · simp [State.setCall, hk, hpu.queue]
      · simpa only [State.setCall, update_self] using hlt q hp
    · exact hpu.of_eq rfl (update_of_ne hut _ _) rfl
  · have hl := h.lens u hpc
    obtain rfl | hut := eq_or_ne u t
    · simp only [State.setCall, update_self]
      exact ⟨hle, by rw [hlen]; exact hl.2⟩
    · simpa only [State.setCall, update_of_ne hut] using hl

section

variable (h : s.Wf)
include h

theorem Wf.setCall (hk : c.kind = (s.call t).kind) (hlen : c.len = (s.call t).len)
    (hle : c.used ≤ c.len) (hlt : ∀ q, s.sched.pendedOn t = some q → c.used < c.len)
    (hp : ∀ place, s.lock = some (t, place) → (s.setCall t c).AtPlace t place) :
    (s.setCall t c).Wf := by
  refine ⟨h.toThreads.setCall hk hlen hle hlt, h.holds, h.empty, h.full, fun u place hl => ?_⟩
  obtain rfl | hut := eq_or_ne u t
  · exact hp place hl
  · exact (h.place u place hl).mono rfl (update_of_ne hut _ _) fun _ => id

theorem Wf.enter (hfree : s.lock = none) (hp : s.sched.pendedOn t = none)
    (hc : c.used ≤ c.len ∧ (c.len : ℤ) ≤ int32Max)
    (hk : k = if s.pc t = .waiting then s.waiting - 1 else s.waiting) :
    ({ s.setCall t c with waiting := k }.enter t).Wf := by
  have hne : ∀ {u q}, s.sched.pendedOn u = some q → u ≠ t := by
    rintro u q hu rfl
    simp [hp] at hu
  refine ⟨⟨h.order, fun u => ?_, fun u q hu => ?_, ?_, fun u hpc => ?_, fun u hpc => ?_⟩, h.holds,
    h.empty, h.full, fun u place hl => ?_⟩
  · obtain rfl | hut := eq_or_ne u t
    · simp [State.enter]
    · simp [State.enter, State.setCall, hut, hut.symm, h.holder, hfree]
  · exact (h.pends u q hu).of_eq (update_of_ne (hne hu) _ _)
      (update_of_ne (hne hu) _ _) rfl
  · obtain ⟨W, hW, hcard⟩ := h.others t
    refine ⟨W, fun u => ?_, hk.trans hcard.symm⟩
    obtain rfl | hut := eq_or_ne u t
    · simp [State.enter, hW]
    · simp [State.enter, State.setCall, hW, hut]
  · obtain rfl | hut := eq_or_ne u t
    · simpa only [State.enter, State.setCall, update_self] using hc
    · simp only [State.enter, State.setCall, update_of_ne hut] at hpc ⊢
      exact h.lens u hpc
  · obtain rfl | hut := eq_or_ne u t
    · simp [State.enter] at hpc
    · exact h.retval u (by simpa [State.enter, State.setCall, hut] using hpc)
  · cases hl
    trivial

theorem Wf.pendCurr (hl : s.lock = some (t, .waitFor)) : (s.pendCurr t w).Wf := by
  have hin := h.inside hl
  have hnp := h.not_pended (t := t) (by simp [hin])
  obtain ⟨hleft, hfull, hempty⟩ := h.place t _ hl
  refine ⟨⟨h.order.pendLocked hnp, fun u => ?_, fun u q hu => ?_, ?_, fun u hpc => ?_,
    fun u hpc => ?_⟩, h.holds, fun u hu => ?_, fun u hu => ?_, by simp [State.pendCurr]⟩
  · obtain rfl | hut := eq_or_ne u t
    · simp [State.pendCurr]
    · simp [State.pendCurr, hut, hut.symm, h.holder, hl]
  · obtain rfl | hut := eq_or_ne u t
    · have hq : (s.call u).kind.queue = q := by simpa [State.pendCurr] using hu
      exact ⟨by simp [State.pendCurr], hq, hleft, by simp [State.pendCurr]⟩
    · have hu' : s.sched.pendedOn u = some q := by simpa [State.pendCurr, hut] using hu
      exact (h.pends u q hu').of_eq (update_of_ne hut _ _) rfl
        (update_of_ne hut _ _)
  · obtain ⟨W, hW, hcard⟩ := h.count
    refine ⟨insert t W, fun u => ?_, ?_⟩
    · obtain rfl | hut := eq_or_ne u t
      · simp [State.pendCurr]
      · simp [State.pendCurr, hut, hW]
    · rw [Finset.card_insert_of_notMem (by simp [hW, hin]), ← hcard]
      rfl
  · obtain rfl | hut := eq_or_ne u t
    · exact h.lens u (by simp [hin])
    · exact h.lens u (by simpa [State.pendCurr, hut] using hpc)
  · obtain rfl | hut := eq_or_ne u t
    · exact .inr (by simp [State.pendCurr])
    · simpa [State.pendCurr, hut] using h.retval u (by simpa [State.pendCurr, hut] using hpc)
  · obtain rfl | hut := eq_or_ne u t
    · refine hempty ?_
      cases hk : (s.call u).kind with
      | read => rfl
      | write => simp [State.pendCurr, hk, Kind.queue] at hu
    · exact h.empty u (by simpa [State.pendCurr, hut] using hu)
  · obtain rfl | hut := eq_or_ne u t
    · refine hfull ?_
      cases hk : (s.call u).kind with
      | write => rfl
      | read => simp [State.pendCurr, hk, Kind.queue] at hu
    · exact h.full u (by simpa [State.pendCurr, hut] using hu)

theorem Wf.moved (hl : s.lock = some (t, place)) (hplace : place = .fill ∨ place = .drain)
    (hh : buf.Holds l) (hle : (s.call t).used + n ≤ (s.call t).len)
    (hempty : ∀ u, s.sched.pendedOn u = some .data → l = [])
    (hfull : ∀ u, s.sched.pendedOn u = some .space → l.length = buf.size) :
    (s.moved t buf data n).Wf := by
  have hcont := hh.contents
  have hnp := h.not_pended (t := t) (by simp [h.inside hl])
  have hth : { s with buf }.Threads :=
    ⟨h.order, h.holder, fun u q hu => (h.pends u q hu).of_eq rfl rfl rfl, h.count, h.lens, h.retval⟩
  refine ⟨hth.setCall rfl rfl hle (fun q hq => absurd hq (by simp [hnp])), ?_, ?_, ?_, ?_⟩
  · show buf.Holds buf.contents
    rwa [hcont]
  · exact fun u hu => hcont.trans (hempty u hu)
  · exact fun u hu => (congrArg _ hcont).trans (hfull u hu)
  intro u place' hl'
  obtain ⟨rfl, rfl⟩ : t = u ∧ place = place' := by
    simpa using hl.symm.trans hl'
  have hp := h.place t place hl
  obtain rfl | rfl := hplace
  · exact ⟨by simpa [State.moved, State.setCall] using hp.1, hp.2⟩
  · exact ⟨by simpa [State.moved, State.setCall] using hp.1, hp.2⟩

section

omit [DecidableEq τ]

theorem Wf.ringBufPut (hl : s.lock = some (t, .fill))
    (hput : s.buf.ringBufPut (s.call t).data (s.call t).used (((s.call t).len - (s.call t).used) % 2 ^ 32) = (buf, n)) :
    n = min ((s.call t).len - (s.call t).used) (s.buf.size - s.ring.length) ∧
      buf.size = s.buf.size ∧ buf.Holds (s.ring ++ (s.call t).data.list (s.call t).used n) := by
  have hlen := h.len_le hl
  rw [int32Max] at hlen
  rw [Nat.mod_eq_of_lt (by omega)] at hput
  obtain ⟨buf', heq, hsize, hh⟩ := h.holds.ringBufPut (s.call t).data (s.call t).used
    ((s.call t).len - (s.call t).used)
  obtain ⟨rfl, rfl⟩ := Prod.mk.inj (heq.symm.trans hput)
  exact ⟨rfl, hsize, hh⟩

theorem Wf.ringBufGet (hl : s.lock = some (t, .drain))
    (hget : s.buf.ringBufGet (s.call t).data (s.call t).used (((s.call t).len - (s.call t).used) % 2 ^ 32) = (buf, data, n)) :
    n = min ((s.call t).len - (s.call t).used) s.ring.length ∧ buf.size = s.buf.size ∧
      buf.Holds (s.ring.drop n) ∧ data.list (s.call t).used n = s.ring.take n ∧
      Memory.AgreeOff (s.call t).data data (s.call t).used ((s.call t).used + n) := by
  have hlen := h.len_le hl
  rw [int32Max] at hlen
  rw [Nat.mod_eq_of_lt (by omega)] at hget
  obtain ⟨buf', data', heq, hsize, hh, hlist, hoff⟩ := h.holds.ringBufGet (s.call t).data
    (s.call t).used ((s.call t).len - (s.call t).used)
  obtain ⟨rfl, hrest⟩ := Prod.mk.inj (heq.symm.trans hget)
  obtain ⟨rfl, rfl⟩ := Prod.mk.inj hrest
  exact ⟨rfl, hsize, hh, hlist, hoff⟩

end

theorem Wf.proceed (hl : s.lock = some (t, place))
    (hfull : (s.call t).used < (s.call t).len → (s.call t).kind = .write → s.ring.length = s.buf.size)
    (hempty : (s.call t).used < (s.call t).len → (s.call t).kind = .read → s.ring = []) :
    (s.proceed t).1.Wf := by
  rw [State.proceed]
  split
  · exact h.release hl
  · next hne =>
    have hlt := lt_of_le_of_ne (h.used_le hl) hne
    exact h.stay hl ⟨hlt, hfull hlt, hempty hlt⟩

theorem Wf.fill (hl : s.lock = some (t, .fill))
    (hput : s.buf.ringBufPut (s.call t).data (s.call t).used (((s.call t).len - (s.call t).used) % 2 ^ 32) = (buf, n)) :
    (s.moved t buf (s.call t).data n).Wf ∧ ((s.moved t buf (s.call t).data n).proceed t).1.Wf := by
  obtain ⟨hn, hsize, hh⟩ := h.ringBufPut hl hput
  obtain ⟨hkind, hnone⟩ := h.place t _ hl
  have hle := h.used_le hl
  have hring := h.holds.length_le
  have hlen : (s.ring ++ (s.call t).data.list (s.call t).used n).length = s.ring.length + n := by
    simp
  have hwf : (s.moved t buf (s.call t).data n).Wf :=
    h.moved hl (.inl rfl) hh (by omega) (fun u hu => absurd hu (hnone u)) fun u hu => by
      have := h.full u hu
      omega
  refine ⟨hwf, hwf.proceed hl (fun hlt _ => ?_) fun _ hk => ?_⟩
  · have hcont : (s.moved t buf (s.call t).data n).ring = _ := hh.contents
    simp only [State.moved, State.setCall, update_self] at hlt
    rw [hcont]
    show _ = buf.size
    omega
  · simp [State.moved, State.setCall, hkind] at hk

theorem Wf.drain (hl : s.lock = some (t, .drain))
    (hget : s.buf.ringBufGet (s.call t).data (s.call t).used (((s.call t).len - (s.call t).used) % 2 ^ 32) = (buf, data, n)) :
    (s.moved t buf data n).Wf ∧ ((s.moved t buf data n).proceed t).1.Wf := by
  obtain ⟨hn, -, hh, -⟩ := h.ringBufGet hl hget
  obtain ⟨hkind, hnone⟩ := h.place t _ hl
  have hle := h.used_le hl
  have hwf : (s.moved t buf data n).Wf :=
    h.moved hl (.inr rfl) hh (by omega) (fun u hu => by simp [h.empty u hu])
      fun u hu => absurd hu (hnone u)
  refine ⟨hwf, hwf.proceed hl (fun _ hk => ?_) fun hlt _ => ?_⟩
  · simp [State.moved, State.setCall, hkind] at hk
  · have hcont : (s.moved t buf data n).ring = _ := hh.contents
    simp only [State.moved, State.setCall, update_self] at hlt
    rw [hcont]
    exact List.drop_eq_nil_of_le (by omega)

end

section Transfer

variable (s t) (n : ℕ)

@[simp] theorem transfer_call_reader (u : τ) : (s.transfer t u n).call u =
    { s.call u with
      data := (s.call u).data.paste (s.call u).used (s.call t).data (s.call t).used n
      used := (s.call u).used + n } :=
  update_self ..

theorem transfer_call_writer (hut : u ≠ t) : (s.transfer t u n).call t =
    { s.call t with used := (s.call t).used + n } := by
  simp [transfer, setCall, hut.symm]

end Transfer

theorem Wf.transfer (h : s.Wf) (hl : s.lock = some (t, .copy)) (hut : u ≠ t)
    (hle : (s.call t).used + n ≤ (s.call t).len) (hle' : (s.call u).used + n ≤ (s.call u).len)
    (hlt : ∀ q, s.sched.pendedOn u = some q → (s.call u).used + n < (s.call u).len) :
    (s.transfer t u n).Wf := by
  have hnp := h.not_pended (t := t) (by simp [h.inside hl])
  have hplace := h.place t _ hl
  have h₁ : (s.setCall t { s.call t with used := (s.call t).used + n }).Wf := by
    refine h.setCall rfl rfl hle (fun q hq => absurd hq (by simp [hnp])) fun place hl' => ?_
    obtain rfl : .copy = place := by simpa [hl] using hl'
    exact ⟨by simpa [State.setCall] using hplace.1, hplace.2⟩
  have hcall : (s.setCall t { s.call t with used := (s.call t).used + n }).call u = s.call u :=
    update_of_ne hut _ _
  refine h₁.setCall (by rw [hcall]) (by rw [hcall]) hle' hlt fun place hl' => ?_
  exact absurd (hl.symm.trans hl') (by simp [hut.symm])

theorem Wf.reader (h : s.Wf) (hl : s.lock = some (t, .copy)) (hq : s.sched.waitq .data = u :: l) :
    s.Pends u .data ∧ u ≠ t := by
  have hp := h.pends u _ (h.order.head hq).1
  refine ⟨hp, ?_⟩
  rintro rfl
  have := h.inside hl
  simp [hp.pc] at this

def LenFits : Action τ → Prop
  | .call _ _ _ len _ => (len : ℤ) ≤ int32Max
  | _ => True

theorem Wf.move (h : s.Wf) (hok : LenFits a) (hm : Move s a s' es) : s'.Wf := by
  cases hm with
  | call hpc hfree =>
    exact h.enter hfree (h.not_pended (by simp [hpc])) ⟨Nat.zero_le _, hok⟩ (by simp [hpc])
  | go hl hg => exact h.stay hl (h.goes hl hg)
  | wakeOne => exact h.wake _
  | copyMore hl hq hn hlt =>
    obtain ⟨-, hut⟩ := h.reader hl hq
    have hle := h.used_le hl
    refine (h.transfer hl hut (by omega) hlt.le fun _ _ => hlt).stay hl ?_
    simp only [AtPlace, transfer_call_writer s _ _ hut]
    exact ⟨(h.place _ _ hl).1, fun hlt => absurd hlt (by omega)⟩
  | @copyAll _ t u l n place hl hq hle hn hp =>
    obtain ⟨hpends, hut⟩ := h.reader hl hq
    have hle : (s.call t).used + n ≤ (s.call t).len := by
      have := h.used_le hl
      omega
    have hle' : (s.call u).used + n ≤ (s.call u).len := by
      have := hpends.left
      omega
    refine ((h.wake u).transfer hl hut hle hle' fun q hq => absurd hq (by simp)).stay hl ?_
    obtain ⟨hkind, hring⟩ := h.place t _ hl
    obtain rfl | ⟨rfl, hall⟩ := hp
    · simp only [AtPlace, transfer_call_writer _ t n hut]
      exact ⟨hkind, hring⟩
    · simp only [AtPlace, transfer_call_writer _ t n hut]
      exact ⟨hkind, fun hlt => absurd hlt (by omega)⟩
  | copied hl => exact h.release hl
  | fill hl hput hs =>
    have := (h.fill hl hput).2
    rwa [hs] at this
  | drain hl hget hs =>
    have := (h.drain hl hget).2
    rwa [hs] at this
  | giveUp hl => exact h.release hl
  | pend hl => exact h.pendCurr hl
  | @resume _ t hpc hp hfree =>
    have := h.enter hfree hp (h.lens t (by simp [hpc])) (if_pos hpc).symm
    simpa [State.setCall] using this
  | expired hpc hp hfree =>
    exact h.leave hp (fun u _ hu => by simp [h.holder, hfree] at hu) (if_pos hpc).symm
  | expire hs =>
    obtain ⟨hp, hr⟩ := WaitQs.expire_fields hs
    exact h.sub (h.order.expire hs) (fun t q ht => ⟨hp ▸ ht, congrFun hr t⟩)
      fun t => .inr (congrFun hr t)
  | @timeout _ u _ hs =>
    obtain ⟨hp, hr⟩ := WaitQs.timeout_fields hs
    refine h.sub (h.order.zThreadTimeout hs) (fun t q ht => ⟨?_, congrFun hr t⟩)
      fun t => .inr (congrFun hr t)
    rw [hp] at ht
    obtain rfl | hne := eq_or_ne t u
    · simp at ht
    · simpa [hne] using ht

end State

end ZephyrRtos.Pipe
