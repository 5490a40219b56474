import ZephyrRtos.Msgq.Laws

namespace ZephyrRtos.Msgq

open List Function Lib Sched Config

variable {cfg : Config} {τ : Type} {s s' : State cfg τ} {t u : τ} {a : Action cfg τ}
  {es : List (Event cfg τ)} {data : Msg cfg} {r : ℕ}

/-- The 32 bits of `k_msgq_peek_at` are enough for the buffer. -/
def PeekFits : Action cfg τ → Prop
  | .peekAt .. => cfg.maxMsgs * cfg.msgSize ≤ 2 ^ 32
  | _ => True

instance : ∀ a : Action cfg τ, Decidable (PeekFits a)
  | .peekAt .. => inferInstanceAs (Decidable (_ ≤ _))
  | .put .. | .putFront .. | .get .. | .peek _ | .purge _ | .advance _ | .expire _ | .timeout _ =>
    inferInstanceAs (Decidable True)

def ops (es : List (Event cfg τ)) : List (DequeOp (Msg cfg)) := es.flatMap Event.ops

namespace State

def DequeStep (s : State cfg τ) (es : List (Event cfg τ)) (s' : State cfg τ) : Prop :=
  (ops es).foldlM (DequeOp.run cfg.maxMsgs) s.ring = some s'.ring

theorem dequeStep_peeked (hd : s.ring[i]? = some data) :
    s.DequeStep [.peeked t i (some data)] s := by
  simp [DequeStep, ops, Event.ops, DequeOp.run, hd]

namespace Layout

theorem of_eq (h : s.Layout r) (s' : State cfg τ) (hm : s'.mem = s.mem) (hr : s'.readPtr = s.readPtr)
    (hw : s'.writePtr = s.writePtr) (hu : s'.usedMsgs = s.usedMsgs) :
    (∃ r, s'.Layout r) ∧ s'.ring = s.ring := by
  refine ⟨⟨r, h.lt, hr.trans h.readPtr, ?_, hu.trans_le h.used_le⟩, by simp [ring, hm, hr, hu]⟩
  rw [hw, hu, h.writePtr]

theorem quiet (h : s.Layout r) (hes : ops es = []) (hm : s'.mem = s.mem)
    (hr : s'.readPtr = s.readPtr) (hw : s'.writePtr = s.writePtr)
    (hu : s'.usedMsgs = s.usedMsgs) : (∃ r, s'.Layout r) ∧ s.DequeStep es s' := by
  obtain ⟨hl, hring⟩ := h.of_eq s' hm hr hw hu
  exact ⟨hl, by rw [DequeStep, hes, hring]; rfl⟩

theorem not_peeked (h : s.Layout r) (hi : s.usedMsgs ≤ i) : s.DequeStep [.peeked t i none] s := by
  have hnone : s.ring[i]? = none := getElem?_eq_none (h.length_ring.trans_le hi)
  simp [DequeStep, ops, Event.ops, DequeOp.run, hnone]

theorem dequeStep_peek (h : s.Layout r) : s.DequeStep (s.peek t) s := by
  rw [State.peek]
  split
  · next hpos =>
    have hd := h.peek hpos
    rw [add_zero, Nat.mod_eq_of_lt h.lt, slot, ← h.readPtr] at hd
    exact dequeStep_peeked hd
  · next hpos => exact h.not_peeked (not_lt.1 hpos)

theorem dequeStep_peekAt (h : s.Layout r) (hfit : cfg.maxMsgs * cfg.msgSize ≤ 2 ^ 32) :
    s.DequeStep (s.peekAt t i) s := by
  rw [State.peekAt]
  split
  · next hi =>
    have hd := h.peek hi
    rw [slot, ← h.peekAddr hfit hi] at hd
    exact dequeStep_peeked hd
  · next hi => exact h.not_peeked (not_lt.1 hi)

variable [DecidableEq τ]

theorem move (h : s.Layout r) (hw : s.Waits) (hok : PeekFits a) (hm : Move s a s' es) :
    (∃ r, s'.Layout r) ∧ s.DequeStep es s' := by
  have hlen := h.length_ring
  cases hm with
  | @handed _ t u l data back hpc hfree hlt hq =>
    -- a thread waits although there is room: it is a reader and there is nothing in the ring
    have hzero : s.usedMsgs = 0 := by
      obtain ⟨-, ⟨-, hocc⟩ | ⟨-, hocc⟩⟩ := hw.waiting u (hw.head_pended hq)
      · rw [occupied, hfree] at hocc
        exact absurd hlt hocc.not_lt
      · rwa [occupied, hfree] at hocc
    obtain ⟨hl, hring⟩ := h.of_eq ({ s with
      sched := s.sched.wake u 0, data := update s.data u data }) rfl rfl rfl rfl
    refine ⟨hl, ?_⟩
    have hnil : s.ring = [] := eq_nil_of_length_eq_zero (hlen.trans hzero)
    rw [DequeStep, hring, hnil]
    cases back <;> simp [ops, Event.ops, DequeOp.run, Nat.zero_lt_of_lt hlt]
  | @stored _ t data back hpc hfree hlt hq =>
    cases back with
    | true =>
      obtain ⟨hl, hring⟩ := h.writeBack data hlt
      refine ⟨⟨r, hl⟩, ?_⟩
      simp [DequeStep, ops, Event.ops, DequeOp.run, hlen, hlt, hring]
    | false =>
      obtain ⟨r', hl, hring⟩ := h.writeFront data hlt
      refine ⟨⟨r', hl⟩, ?_⟩
      simp [DequeStep, ops, Event.ops, DequeOp.run, hlen, hlt, hring]
  | full | waitPut | empty | waitGet | purge | noWriter | purgeOne | resume | expire | timeout =>
    exact h.quiet rfl rfl rfl rfl rfl
  | @take _ t n hpc hfree hn =>
    obtain ⟨hl, hring⟩ := h.take ({ s with
      readPtr := State.nextSlot cfg s.readPtr
      usedMsgs := n
      pc := update s.pc t .inside
      lock := some (t, .handOff (s.mem.bytes s.readPtr cfg.msgSize)) }) hn rfl rfl rfl rfl
    refine ⟨hl, ?_⟩
    rw [DequeStep, hring]
    simp [ops, Event.ops, DequeOp.run]
  | peek => exact ⟨⟨r, h⟩, h.dequeStep_peek⟩
  | peekAt => exact ⟨⟨r, h⟩, h.dequeStep_peekAt hok⟩
  | @refill _ t u l data hpc hlock hq =>
    have hlt : s.usedMsgs < cfg.maxMsgs := by
      obtain ⟨-, ⟨-, hocc⟩ | ⟨-, hocc⟩⟩ := hw.waiting u (hw.head_pended hq)
      · rw [occupied, hlock] at hocc
        exact hocc.le
      · rw [occupied, hlock] at hocc
        exact absurd hocc (Nat.succ_ne_zero _)
    obtain ⟨hl, hring⟩ := h.writeBack (s.data u) hlt
    refine ⟨⟨r, hl.lt, hl.readPtr, hl.writePtr, hl.used_le⟩, ?_⟩
    simp only [DequeStep, ops, Event.ops, flatMap_cons, flatMap_nil, append_nil, foldlM_cons, DequeOp.run, hlen, if_pos hlt]
    exact congrArg some hring.symm
  | purged hpc hlock hq =>
    obtain ⟨hl, hring⟩ := h.purge
      ({ s with usedMsgs := 0, readPtr := s.writePtr }.leave _) rfl rfl rfl
    refine ⟨hl, ?_⟩
    rw [DequeStep, hring]
    simp [ops, Event.ops, DequeOp.run]

end Layout

section Phase

variable [DecidableEq τ]

def PhaseStep (s : State cfg τ) (es : List (Event cfg τ)) (s' : State cfg τ) : Prop :=
  Follows Event.thread Phase.on es s.phase s'.phase

theorem phase_outside (h : s.pc t = .outside) : s.phase t = .idle := by
  rw [phase, h]

theorem phaseStep_peek (hpc : s.pc t = .outside) : s.PhaseStep [.peeked t i d] s :=
  .own t (by simp [Event.thread]) (fun _ _ => rfl) (by simp [phase_outside hpc])

section

omit [DecidableEq τ]

theorem phase_of_eq (hpc : s'.pc t = s.pc t) (hl : s.pc t = .inside → s'.lock = s.lock)
    (hr : s'.sched.swapRetval t = s.sched.swapRetval t) (hd : s'.data t = s.data t) :
    s'.phase t = s.phase t := by
  rw [phase, phase, hpc, hr, hd]
  split
  case h_4 h => rw [hl h]
  all_goals rfl

theorem Waits.only_inside (h : s.Waits) (hl : s.lock = some (u, place)) (hne : u ≠ t) :
    s.pc t ≠ .inside := by
  simp [h.holder, hl, hne]

theorem phase_handOff (hpc : s.pc t = .inside) (hl : s.lock = some (u, .handOff data)) :
    s.phase t = .got data := by
  rw [phase, hpc, hl]

theorem phase_purge (hpc : s.pc t = .inside) (hl : s.lock = some (u, .purge)) :
    s.phase t = .idle := by
  rw [phase, hpc, hl]

theorem Waits.phase_pended (h : s.Waits) (hp : s.sched.pendedOn t = some ()) :
    (s.pc t = .put → s.phase t = .asked (s.data t) true) ∧
      (s.pc t = .get → s.phase t = .waiting) := by
  obtain ⟨hr, -⟩ := h.waiting t hp
  refine ⟨fun hpc => ?_, fun hpc => ?_⟩ <;> simp [phase, hpc, hr]

theorem Waits.phase_enter (h : s.Waits) (hl : s.lock = none) (hpc : s'.pc u = s.pc u)
    (hr : s'.sched = s.sched) (hd : s'.data = s.data) : s'.phase u = s.phase u :=
  phase_of_eq hpc (fun hi => by simp [h.holder, hl] at hi) (by rw [hr]) (by rw [hd])

end

theorem phase_pendCurr (hne : u ≠ t) : (s.pendCurr t p data w).phase u = s.phase u :=
  phase_of_eq (by simp [State.pendCurr, hne]) (fun _ => rfl) (by simp [State.pendCurr, hne])
    (by simp [State.pendCurr, hne])

theorem phase_leave_self : (s.leave t).phase t = .idle := phase_outside (update_self ..)

theorem Waits.phase_leave (h : s.Waits) (hl : s.lock = some (t, place)) (hne : u ≠ t) :
    (s.leave t).phase u = s.phase u :=
  phase_of_eq (update_of_ne hne _ _) (fun hi => absurd hi (h.only_inside hl hne.symm)) rfl rfl

theorem Waits.phaseStep (h : s.Waits) (hm : Move s a s' es) : s.PhaseStep es s' := by
  cases hm with
  | @handed _ t u l data back hpc hfree hlt hq =>
    have hu := h.head_pended hq
    obtain ⟨hr, ⟨-, hocc⟩ | ⟨hget, -⟩⟩ := h.waiting u hu
    · rw [occupied, hfree] at hocc
      exact absurd hlt hocc.not_lt
    have hne : t ≠ u := by
      rintro rfl
      simp [hpc] at hget
    refine .of_mem (fun v hv => ?_) ?_
    · have hvu : v ≠ u := (hv (.received u data) (by simp)).symm
      exact phase_of_eq rfl (fun _ => rfl) (by simp [hvu]) (by simp [hvu])
    have ht : s.phase t = .idle := phase_outside hpc
    have hw : s.phase u = .waiting := (h.phase_pended hu).2 hget
    have ht' : { s with sched := s.sched.wake u 0, data := update s.data u data }.phase t
      = .idle := phase_outside hpc
    have hu' : { s with sched := s.sched.wake u 0, data := update s.data u data }.phase u
      = .got data := by simp [phase, hget]
    simp [watch, Event.thread, ht, hw, ht', hu', hne, hne.symm]
  | @stored _ t data back hpc hfree hlt hq =>
    have hsame : ∀ v, (if back then s.writeBack data else s.writeFront data).phase v = s.phase v := by
      intro v
      split <;> rfl
    exact .own t (by simp [Event.thread]) (fun v _ => hsame v) (by simp [hsame, phase_outside hpc])
  | @full _ t _ _ hpc | @empty _ t _ hpc =>
    exact .own t (by simp [Event.thread]) (fun _ _ => rfl) (by simp [phase_outside hpc, enomsg])
  | @waitPut _ t data w hpc hfree hle =>
    have ht' : (s.pendCurr t .put data w).phase t = .asked data true := by
      simp [phase, State.pendCurr, eagain]
    exact .own t (by simp [Event.thread]) (fun _ => phase_pendCurr) (by simp [phase_outside hpc, ht'])
  | @take _ t _ hpc hfree hn =>
    refine .own t (by simp [Event.thread])
      (fun v hne => h.phase_enter hfree (update_of_ne hne _ _) rfl rfl) ?_
    simp only [foldlM_cons, phase_outside hpc, Phase.on_get, Phase.on_received]
    exact congrArg some (phase_handOff (update_self ..) rfl).symm
  | @waitGet _ t data w hpc hfree hn =>
    have ht' : (s.pendCurr t .get data w).phase t = .waiting := by
      simp [phase, State.pendCurr, eagain]
    exact .own t (by simp [Event.thread]) (fun _ => phase_pendCurr) (by simp [phase_outside hpc, ht'])
  | peek hpc =>
    rw [State.peek]
    split <;> exact phaseStep_peek hpc
  | peekAt hpc =>
    rw [State.peekAt]
    split <;> exact phaseStep_peek hpc
  | @purge _ t hpc hfree =>
    refine .quiet fun v => ?_
    obtain rfl | hne := eq_or_ne v t
    · rw [phase_outside hpc, phase_purge (update_self ..) rfl]
    · exact h.phase_enter hfree (update_of_ne hne _ _) rfl rfl
  | @refill _ t u l data hpc hlock hq =>
    have hu := h.head_pended hq
    obtain ⟨hr, ⟨hput, -⟩ | ⟨-, hocc⟩⟩ := h.waiting u hu
    case inr => simp [occupied, hlock] at hocc
    have hne : t ≠ u := by
      rintro rfl
      simp [hpc] at hput
    refine .of_mem (fun v hv => ?_) ?_
    · have hvu : v ≠ u := (hv (.accepted u (s.data u) true) (by simp)).symm
      have hvt : v ≠ t := (hv (.returned t 0 data) (by simp)).symm
      exact phase_of_eq (by simp [leave, writeBack, hvt])
        (fun hi => absurd hi (h.only_inside hlock hvt.symm)) (by simp [leave, writeBack, hvu]) rfl
    · have ht : s.phase t = .got data := phase_handOff hpc hlock
      have hw : s.phase u = .asked (s.data u) true := (h.phase_pended hu).1 hput
      have hu' : (({ s with sched := s.sched.wake u 0 }.writeBack (s.data u)).leave t).phase u
        = .entered := by simp [phase, leave, writeBack, hne.symm, hput]
      simp [watch, Event.thread, ht, hw, phase_leave_self, hu', hne, hne.symm]
  | @noWriter _ t _ hpc hlock hq =>
    exact .own t (by simp [Event.thread]) (fun _ => h.phase_leave hlock)
      (by simp [phase_handOff hpc hlock, phase_leave_self])
  | @purgeOne _ t u l hpc hlock hq =>
    have hu := h.head_pended hq
    obtain ⟨hr, -⟩ := h.waiting u hu
    refine .quiet fun v => ?_
    obtain rfl | hne := eq_or_ne v u
    · simp [phase, hr, enomsg]
    · exact phase_of_eq rfl (fun _ => rfl) (by simp [hne]) rfl
  | @purged _ t hpc hlock hq =>
    exact .own t (by simp [Event.thread]) (fun _ => h.phase_leave hlock)
      (by simp [phase_purge hpc hlock, phase_leave_self])
  | @resume _ t hpc hp =>
    refine .own t (by simp [Event.thread])
      (fun _ hne => phase_of_eq (update_of_ne hne _ _) (fun _ => rfl) rfl rfl) ?_
    have ht' : { s with pc := update s.pc t .outside }.phase t = .idle :=
      phase_outside (update_self ..)
    rw [ht', phase]
    obtain hpc | hpc := hpc
    · by_cases hr : s.sched.swapRetval t = 0 <;> simp [hpc, hr]
    · by_cases hr : s.sched.swapRetval t = 0 <;> simp [hpc, hr]
  | expire hs =>
    obtain ⟨-, hr⟩ := WaitQs.expire_fields hs
    exact .quiet fun v => phase_of_eq rfl (fun _ => rfl) (congrFun hr v) rfl
  | timeout hs =>
    obtain ⟨-, hr⟩ := WaitQs.timeout_fields hs
    exact .quiet fun v => phase_of_eq rfl (fun _ => rfl) (congrFun hr v) rfl

end Phase

variable [DecidableEq τ]

structure Inv (es : List (Event cfg τ)) (s : State cfg τ) : Prop where
  waits : s.Waits
  layout : ∃ r, s.Layout r
  deque : (ops es).foldlM (DequeOp.run cfg.maxMsgs) [] = some s.ring
  calls : Follows Event.thread Phase.on es (fun _ => .idle) s.phase

theorem Inv.init (hmax : 1 ≤ cfg.maxMsgs) {prio : τ → ℤ} {mem : Memory} {data : τ → Msg cfg} :
    Inv [] (State.init prio mem data) := by
  refine ⟨.init, ⟨0, hmax, ?_, ?_, Nat.zero_le _⟩, rfl, fun _ => rfl⟩
  · simp [State.init, slotPtr]
  · simp [State.init, slotPtr]

theorem Inv.move (h : Inv es s) (hok : PeekFits a) (hm : Move s a s' es') : Inv (es ++ es') s' := by
  obtain ⟨r, hl⟩ := h.layout
  obtain ⟨hl', hd⟩ := hl.move h.waits hok hm
  refine ⟨h.waits.move hl.used_le hm, hl', ?_, ?_⟩
  · rwa [ops, flatMap_append, foldlM_append, ← ops, h.deque]
  · exact h.calls.append (h.waits.phaseStep hm)

end State

variable [DecidableEq τ]

/-- The events are those of a bounded deque that holds what is in the ring: each accepted message
is in it, was received once or was purged, each call returns 0 exactly if it did what it was to
do, and threads wait only for what is not there. -/
theorem msgq_bounded_deque (hmax : 1 ≤ cfg.maxMsgs) {prio : τ → ℤ} {mem : Memory}
    {data : τ → Msg cfg}
    (h : Reaches (msgq cfg prio mem data) (fun _ a => PeekFits a) es s) :
    s.usedMsgs ≤ cfg.maxMsgs ∧ s.ring.length = s.usedMsgs ∧
    (ops es).foldlM (DequeOp.run cfg.maxMsgs) [] = some s.ring ∧
    (Ledger.ofOps (ops es)).items = s.ring ∧
    (Ledger.ofOps (ops es)).Accounts ((ops es).flatMap DequeOp.pushed)
      ((ops es).flatMap DequeOp.popped) ∧
    Follows Event.thread Phase.on es (fun _ => .idle) s.phase ∧
    (s.lock = none → ∀ t, s.sched.pendedOn t = some () →
      s.pc t = .put ∧ s.usedMsgs = cfg.maxMsgs ∨ s.pc t = .get ∧ s.usedMsgs = 0) := by
  have hinv : State.Inv es s := h.invariant (.init hmax)
    fun _ _ _ _ _ hi hok hs => hi.move hok (State.move_of_step hs)
  obtain ⟨r, hl⟩ := hinv.layout
  obtain ⟨hacc, hitems⟩ := Ledger.accounts_ofOps hinv.deque
  refine ⟨hl.used_le, hl.length_ring, hinv.deque, hitems, hacc, hinv.calls, fun hfree t ht => ?_⟩
  have hw := (hinv.waits.waiting t ht).2
  rwa [State.occupied, hfree] at hw

def small : Config := ⟨100, 1, 2⟩

theorem msgq_bounded_deque_refill : ∃ es s,
    Reaches (msgq small (fun _ : Fin 3 => 0) (fun _ => 0) fun _ _ => 0)
      (fun _ a => PeekFits a) es s ∧
    s.readPtr = 101 ∧ s.ring = [fun _ => 2, fun _ => 3] ∧
    (ops es).flatMap DequeOp.popped = [fun _ => 1] ∧
    (Ledger.ofOps (ops es)).Accounts ((ops es).flatMap DequeOp.pushed) [fun _ => 1] := by
  obtain ⟨es, s, hrun, hread, hring, hpop⟩ := Reaches.of_exec
    (msgq small (fun _ : Fin 3 => 0) (fun _ => 0) fun _ _ => 0) (fun _ a => PeekFits a)
    [.put 0 (fun _ => 1) .forever, .put 0 (fun _ => 2) .forever, .put 1 (fun _ => 3) .ticks,
      .get 2 (fun _ => 0) .forever, .expire 1, .advance 2, .advance 1, .peekAt 0 1]
    (fun es s => s.readPtr = 101 ∧ s.ring = [fun _ => 2, fun _ => 3] ∧
      (ops es).flatMap DequeOp.popped = [fun _ => 1]) (by decide +kernel)
  obtain ⟨-, -, -, -, hacc, -⟩ := msgq_bounded_deque (by decide) hrun
  exact ⟨es, s, hrun, hread, hring, hpop, hpop ▸ hacc⟩

def huge : Config := ⟨0, 2 ^ 31, 3⟩

/-- The two slots from the read pointer to the end have 2^32 bytes, which 32 bits cannot tell from
none: the message that `k_msgq_peek_at` copies is the one that was already received. -/
theorem msgq_peek_at_stale : ∃ es s m,
    Reaches (msgq huge (fun _ : Unit => 0) (fun _ => 0) fun _ _ => 0) (fun _ _ => True)
      (es ++ [.peeked () 0 (some m)]) s ∧ s.ring[0]? ≠ some m := by
  let first (m : Msg huge) : UInt8 := m ⟨0, by decide⟩
  obtain ⟨es, s, hrun, hpc, hfree, hused, hring, hpeek⟩ := Reaches.of_exec
    (msgq huge (fun _ : Unit => 0) (fun _ => 0) fun _ _ => 0) (fun _ _ => True)
    [.put () (fun _ => 1) .noWait, .get () (fun _ => 0) .noWait, .advance (),
      .put () (fun _ => 2) .noWait]
    (fun _ s => s.pc () = .outside ∧ s.lock = none ∧ s.usedMsgs = 1 ∧ s.ring.map first = [2] ∧
      s.mem (s.peekAddr 0) = 1) (by decide +kernel)
  refine ⟨es, s, s.mem.bytes (s.peekAddr 0) (2 ^ 31), hrun.snoc (a := .peekAt () 0) trivial ?_,
    fun h => ?_⟩
  · simp only [msgq, State.step, State.calls, hpc, hfree, State.peekAt, hused]
    rfl
  · have hbyte : (s.ring.map first)[0]? = some (s.mem (s.peekAddr 0)) := by
      rw [List.getElem?_map, h]
      rfl
    rw [hring, hpeek] at hbyte
    exact absurd hbyte (by decide)

end ZephyrRtos.Msgq
