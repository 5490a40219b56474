import ZephyrRtos.EventObj.Model

namespace ZephyrRtos.EventObj

open List Function Lib Sched

variable {τ : Type}

namespace State

def Hit (s : State τ) (current : Bits) (t : τ) : Prop := s.met current t ≠ 0

instance (s : State τ) (current : Bits) (t : τ) : Decidable (s.Hit current t) :=
  inferInstanceAs (Decidable (_ ≠ _))

variable [DecidableEq τ]

structure Woken (s : State τ) (current : Bits) (l : List τ) (s' : State τ) : Prop where
  same : s'.events = s.events ∧ s'.eventOptions = s.eventOptions ∧ s'.waiting = s.waiting ∧
    s'.lock = s.lock
  threadEvents : ∀ u, s'.threadEvents u =
    if u ∈ l ∧ s.Hit current u then s.met current u else s.threadEvents u
  pendedOn : ∀ u, s'.sched.pendedOn u =
    if u ∈ l ∧ s.Hit current u then none else s.sched.pendedOn u
  swapRetval : ∀ u, s'.sched.swapRetval u =
    if u ∈ l ∧ s.Hit current u then 0 else s.sched.swapRetval u
  inOrder : s'.sched.InOrder

def consume (s : State τ) (current : Bits) (clear : Bits) (l : List τ) : Bits :=
  l.foldl (fun c u => if (s.eventOptions u).clear then c ||| s.met current u else c) clear

variable {s s' : State τ} {current : Bits} {l : List τ} {t u : τ}

theorem wakeThread_inOrder (h : s.sched.InOrder) (t : τ) : (s.wakeThread t).sched.InOrder := by
  have h' : (s.sched.threadReturnValueSet t 0).InOrder := ⟨h.mem_iff, h.ordered, h.recent⟩
  exact h'.leave

theorem wakeThread_pendedOn (s : State τ) (t : τ) :
    (s.wakeThread t).sched.pendedOn = update s.sched.pendedOn t none :=
  WaitQs.unpend_pendedOn _ t

theorem wake_retval (s : State τ) (t : τ) :
    (s.wakeThread t).sched.swapRetval = update s.sched.swapRetval t 0 :=
  WaitQs.unpend_swapRetval _ t

theorem met_congr (hev : s'.threadEvents u = s.threadEvents u)
    (hopt : s'.eventOptions = s.eventOptions) : s'.met current u = s.met current u := by
  rw [met, met, hev, hopt]

def give (s : State τ) (t : τ) (bits : Bits) : State τ :=
  { s with
    threadEvents := update s.threadEvents t bits
    sched := s.sched.tryAbortThreadTimeout t }

theorem give_inOrder (h : s.sched.InOrder) (t : τ) (bits : Bits) :
    (s.give t bits).sched.InOrder := ⟨h.mem_iff, h.ordered, h.recent⟩

theorem eventWalkOp_miss (scalable : Bool) (h : ¬s.Hit d.events t) :
    eventWalkOp scalable (s, d) t = (s, d) := if_neg h

theorem eventWalkOp_list (h : s.Hit d.events t) :
    eventWalkOp false (s, d) t = ((s.give t (s.met d.events t)).wakeThread t, { d with
      clearEvents := if (s.eventOptions t).clear then d.clearEvents ||| s.met d.events t
        else d.clearEvents }) := by
  refine (if_pos h).trans ?_
  cases hc : (s.eventOptions t).clear <;> simp <;> rfl

theorem eventWalkOp_tree (h : s.Hit d.events t) :
    eventWalkOp true (s, d) t = (s.give t (s.met d.events t), { d with
      head := t :: d.head
      clearEvents := if (s.eventOptions t).clear then d.clearEvents ||| s.met d.events t
        else d.clearEvents }) := by
  refine (if_pos h).trans ?_
  cases hc : (s.eventOptions t).clear <;> simp <;> rfl

namespace Woken

theorem met_of_notMem (h : Woken s current l s') (hu : u ∉ l) :
    s'.met current u = s.met current u :=
  met_congr (by rw [h.threadEvents, if_neg fun hm => hu hm.1]) h.same.2.1

theorem nil (h : s.sched.InOrder) : Woken s current [] s :=
  ⟨⟨rfl, rfl, rfl, rfl⟩, by simp, by simp, by simp, h⟩

theorem skip (h : Woken s current l s') (hu : ¬s.Hit current u) :
    Woken s current (l ++ [u]) s' := by
  have hiff : ∀ v, v ∈ l ++ [u] ∧ s.Hit current v ↔ v ∈ l ∧ s.Hit current v := by
    intro v
    obtain rfl | hv := eq_or_ne v u
    · simp [hu]
    · simp [hv]
  exact ⟨h.same, fun v => by simp only [hiff, h.threadEvents],
    fun v => by simp only [hiff, h.pendedOn], fun v => by simp only [hiff, h.swapRetval], h.inOrder⟩

theorem wake (h : Woken s current l s') (hu : s.Hit current u) :
    Woken s current (l ++ [u]) ((s'.give u (s.met current u)).wakeThread u) := by
  have hiff : ∀ v, v ∈ l ++ [u] ∧ s.Hit current v ↔ v = u ∨ v ∈ l ∧ s.Hit current v := by
    intro v
    obtain rfl | hv := eq_or_ne v u
    · simp [hu]
    · simp [hv]
  refine ⟨h.same, fun v => ?_, fun v => ?_, fun v => ?_, wakeThread_inOrder
    (give_inOrder h.inOrder u _) u⟩
  · simp only [hiff, wakeThread, give]
    obtain rfl | hv := eq_or_ne v u
    · simp
    · simp [hv, h.threadEvents]
  · simp only [hiff, wakeThread_pendedOn]
    obtain rfl | hv := eq_or_ne v u
    · simp
    · simpa [hv, give, WaitQs.tryAbortThreadTimeout] using h.pendedOn v
  · simp only [hiff, wake_retval]
    obtain rfl | hv := eq_or_ne v u
    · simp
    · simpa [hv, give, WaitQs.tryAbortThreadTimeout] using h.swapRetval v

end Woken

section

omit [DecidableEq τ]

theorem consume_snoc (c : Bits) : s.consume current c (l ++ [u]) =
    if (s.eventOptions u).clear then s.consume current c l ||| s.met current u
    else s.consume current c l := by
  rw [consume, foldl_append]
  rfl

theorem consume_skip (c : Bits) (hu : ¬s.Hit current u) :
    s.consume current c (l ++ [u]) = s.consume current c l := by
  rw [consume_snoc, not_not.1 hu]
  simp

theorem notMem_of_nodup_snoc (h : (l ++ [u]).Nodup) : u ∉ l := fun hm =>
  (nodup_append.1 h).2.2 u hm u (by simp) rfl

end

theorem walk_list (h : s.sched.InOrder) (hl : l.Nodup) (d : WalkData τ) :
    ∃ s', l.foldl (eventWalkOp false) (s, d) =
        (s', { d with clearEvents := s.consume d.events d.clearEvents l }) ∧
      Woken s d.events l s' := by
  induction l using reverseRecOn with
  | nil => exact ⟨s, rfl, .nil h⟩
  | append_singleton l u ih =>
    have hul := notMem_of_nodup_snoc hl
    obtain ⟨s', heq, hw⟩ := ih (nodup_append.1 hl).1
    have hmet := hw.met_of_notMem hul
    rw [foldl_append, heq, foldl_cons]
    by_cases hit : s.Hit d.events u
    · rw [eventWalkOp_list (by rwa [Hit, hmet]), consume_snoc, hw.same.2.1]
      simp only [hmet]
      exact ⟨_, rfl, hw.wake hit⟩
    · rw [eventWalkOp_miss _ (by rwa [Hit, hmet]), consume_skip _ hit]
      exact ⟨s', rfl, hw.skip hit⟩

structure Given (s : State τ) (current : Bits) (l : List τ) (s' : State τ) : Prop where
  same : s'.events = s.events ∧ s'.eventOptions = s.eventOptions ∧ s'.waiting = s.waiting ∧
    s'.lock = s.lock
  threadEvents : ∀ u, s'.threadEvents u =
    if u ∈ l ∧ s.Hit current u then s.met current u else s.threadEvents u
  pendedOn : s'.sched.pendedOn = s.sched.pendedOn
  swapRetval : s'.sched.swapRetval = s.sched.swapRetval
  inOrder : s'.sched.InOrder

theorem walk_tree (h : s.sched.InOrder) (hl : l.Nodup) (d : WalkData τ) :
    ∃ s', l.foldl (eventWalkOp true) (s, d) =
        (s', { d with
          head := (l.filter (s.Hit d.events)).reverse ++ d.head
          clearEvents := s.consume d.events d.clearEvents l }) ∧
      Given s d.events l s' := by
  induction l using reverseRecOn with
  | nil => exact ⟨s, rfl, ⟨rfl, rfl, rfl, rfl⟩, by simp, rfl, rfl, h⟩
  | append_singleton l u ih =>
    have hul := notMem_of_nodup_snoc hl
    obtain ⟨s', heq, hg⟩ := ih (nodup_append.1 hl).1
    have hmet : s'.met d.events u = s.met d.events u :=
      met_congr (by rw [hg.threadEvents, if_neg fun hm => hul hm.1]) hg.same.2.1
    rw [foldl_append, heq, foldl_cons]
    by_cases hit : s.Hit d.events u
    · rw [eventWalkOp_tree (by rwa [Hit, hmet]), consume_snoc, hg.same.2.1]
      simp only [hmet]
      refine ⟨s'.give u (s.met d.events u), by simp [hit], hg.same, fun v => ?_, hg.pendedOn,
        hg.swapRetval, give_inOrder hg.inOrder _ _⟩
      obtain rfl | hv := eq_or_ne v u
      · simp [give, hit]
      · simp [give, hv, hg.threadEvents]
    · rw [eventWalkOp_miss _ (by rwa [Hit, hmet]), consume_skip _ hit]
      refine ⟨s', by simp [hit], hg.same, fun v => ?_, hg.pendedOn, hg.swapRetval, hg.inOrder⟩
      rw [hg.threadEvents]
      obtain rfl | hv := eq_or_ne v u
      · simp [hit]
      · simp [hv]

theorem foldl_wakeThread (h : s.sched.InOrder) (l : List τ) :
    (∀ u, (l.foldl wakeThread s).sched.pendedOn u = if u ∈ l then none else s.sched.pendedOn u) ∧
    (∀ u, (l.foldl wakeThread s).sched.swapRetval u = if u ∈ l then 0 else s.sched.swapRetval u) ∧
    (l.foldl wakeThread s).sched.InOrder ∧
    (l.foldl wakeThread s).threadEvents = s.threadEvents ∧
    (l.foldl wakeThread s).events = s.events ∧
    (l.foldl wakeThread s).eventOptions = s.eventOptions ∧
    (l.foldl wakeThread s).waiting = s.waiting ∧ (l.foldl wakeThread s).lock = s.lock := by
  induction l generalizing s with
  | nil => exact ⟨by simp, by simp, h, rfl, rfl, rfl, rfl, rfl⟩
  | cons t l ih =>
    obtain ⟨hp, hr, ho, hrest⟩ := ih (wakeThread_inOrder h t)
    refine ⟨fun u => ?_, fun u => ?_, ho, hrest⟩
    · rw [foldl_cons, hp, wakeThread_pendedOn]
      obtain rfl | hu := eq_or_ne u t
      · simp
      · simp [hu]
    · rw [foldl_cons, hr, wake_retval]
      obtain rfl | hu := eq_or_ne u t
      · simp
      · simp [hu]

theorem woken_waitqWalk (h : s.sched.InOrder) (scalable : Bool) (posted : Bits) :
    ∃ s' head, s.waitqWalk scalable ⟨[], posted, 0⟩ =
        (s', ⟨head, posted, s.consume posted 0 (s.sched.waitq ())⟩) ∧
      Woken s posted (s.sched.waitq ()) s' := by
  cases scalable with
  | false =>
    obtain ⟨s', heq, hw⟩ := walk_list h (h.nodup ()) ⟨[], posted, 0⟩
    exact ⟨s', [], heq, hw⟩
  | true =>
    obtain ⟨s', heq, hg⟩ := walk_tree h (h.nodup ()) ⟨[], posted, 0⟩
    simp only [waitqWalk, heq]
    obtain ⟨hp, hr, ho, hev, hsame⟩ := foldl_wakeThread hg.inOrder
      ((((s.sched.waitq ()).filter (s.Hit posted)).reverse ++ []))
    refine ⟨_, _, rfl, ?_, fun u => ?_, fun u => ?_, fun u => ?_, ho⟩
    · exact ⟨hsame.1.trans hg.same.1, hsame.2.1.trans hg.same.2.1, hsame.2.2.1.trans hg.same.2.2.1,
        hsame.2.2.2.trans hg.same.2.2.2⟩
    · rw [hev]
      exact hg.threadEvents u
    · rw [hp, hg.pendedOn]
      simp
    · rw [hr, hg.swapRetval]
      simp

end State

end ZephyrRtos.EventObj
