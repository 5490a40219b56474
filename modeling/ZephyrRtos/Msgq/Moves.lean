import ZephyrRtos.Msgq.Slots

namespace ZephyrRtos.Msgq

open Function Lib Sched

variable {cfg : Config} {τ : Type} [DecidableEq τ]

inductive Move (s : State cfg τ) : Action cfg τ → State cfg τ → List (Event cfg τ) → Prop
  | handed {a t u l data back} (hpc : s.pc t = .outside) (hfree : s.lock = none)
      (hlt : s.usedMsgs < cfg.maxMsgs) (hq : s.sched.waitq () = u :: l) :
      Move s a { s with sched := s.sched.wake u 0, data := update s.data u data }
        [.called t (.put data back), .accepted t data back, .received u data, .returned t 0 data]
  | stored {a t data back} (hpc : s.pc t = .outside) (hfree : s.lock = none)
      (hlt : s.usedMsgs < cfg.maxMsgs) (hq : s.sched.waitq () = []) :
      Move s a (if back then s.writeBack data else s.writeFront data)
        [.called t (.put data back), .accepted t data back, .returned t 0 data]
  | full {a t data back} (hpc : s.pc t = .outside) :
      Move s a s [.called t (.put data back), .returned t (-enomsg) data]
  | waitPut {a t data w} (hpc : s.pc t = .outside) (hfree : s.lock = none)
      (hle : cfg.maxMsgs ≤ s.usedMsgs) :
      Move s a (s.pendCurr t .put data w) [.called t (.put data true)]
  | take {a t n} (hpc : s.pc t = .outside) (hfree : s.lock = none) (hn : s.usedMsgs = n + 1) :
      Move s a { s with
          readPtr := State.nextSlot cfg s.readPtr
          usedMsgs := n
          pc := update s.pc t .inside
          lock := some (t, .handOff (s.mem.bytes s.readPtr cfg.msgSize)) }
        [.called t .get, .received t (s.mem.bytes s.readPtr cfg.msgSize)]
  | empty {a t data} (hpc : s.pc t = .outside) :
      Move s a s [.called t .get, .returned t (-enomsg) data]
  | waitGet {a t data w} (hpc : s.pc t = .outside) (hfree : s.lock = none)
      (hn : s.usedMsgs = 0) : Move s a (s.pendCurr t .get data w) [.called t .get]
  | peek {t} (hpc : s.pc t = .outside) (hfree : s.lock = none) : Move s (.peek t) s (s.peek t)
  | peekAt {t i} (hpc : s.pc t = .outside) (hfree : s.lock = none) :
      Move s (.peekAt t i) s (s.peekAt t i)
  | purge {a t} (hpc : s.pc t = .outside) (hfree : s.lock = none) :
      Move s a { s with pc := update s.pc t .inside, lock := some (t, .purge) } []
  | refill {a t u l data} (hpc : s.pc t = .inside) (hlock : s.lock = some (t, .handOff data))
      (hq : s.sched.waitq () = u :: l) :
      Move s a (({ s with sched := s.sched.wake u 0 }.writeBack (s.data u)).leave t)
        [.accepted u (s.data u) true, .returned t 0 data]
  | noWriter {a t data} (hpc : s.pc t = .inside) (hlock : s.lock = some (t, .handOff data))
      (hq : s.sched.waitq () = []) : Move s a (s.leave t) [.returned t 0 data]
  | purgeOne {a t u l} (hpc : s.pc t = .inside) (hlock : s.lock = some (t, .purge))
      (hq : s.sched.waitq () = u :: l) : Move s a { s with sched := s.sched.wake u (-enomsg) } []
  | purged {a t} (hpc : s.pc t = .inside) (hlock : s.lock = some (t, .purge))
      (hq : s.sched.waitq () = []) :
      Move s a ({ s with usedMsgs := 0, readPtr := s.writePtr }.leave t) [.purged t]
  | resume {a t} (hpc : s.pc t = .put ∨ s.pc t = .get) (hp : s.sched.pendedOn t = none) :
      Move s a { s with pc := update s.pc t .outside }
        [.returned t (s.sched.swapRetval t) (s.data t)]
  | expire {a t sched} (h : s.sched.expire t = some sched) : Move s a { s with sched } []
  | timeout {a t sched} (h : s.sched.zThreadTimeout t = some sched) : Move s a { s with sched } []

variable {s s' : State cfg τ} {t : τ} {a : Action cfg τ} {es : List (Event cfg τ)}

namespace State

theorem move_putMsgInQueue (data : Msg cfg) (w : KTimeout) (back : Bool)
    (hpc : s.pc t = .outside) (hfree : s.lock = none) (hw : back = false → w = .noWait) :
    Move s a (s.putMsgInQueue t data w back).1 (s.putMsgInQueue t data w back).2 := by
  rw [putMsgInQueue]
  split
  · next hlt =>
    cases hq : s.sched.waitq () with
    | nil => rw [WaitQs.unpend_nil hq]; exact .stored hpc hfree hlt hq
    | cons u l => rw [WaitQs.unpend_cons hq]; exact .handed hpc hfree hlt hq
  · next hle =>
    split
    · exact .full hpc
    · next hne =>
      obtain rfl : back = true := by
        cases back with
        | false => exact absurd (hw rfl) hne
        | true => rfl
      exact .waitPut hpc hfree (not_lt.1 hle)

theorem move_get (data : Msg cfg) (w : KTimeout) (hpc : s.pc t = .outside) (hfree : s.lock = none) :
    Move s a (s.get t data w).1 (s.get t data w).2 := by
  rw [get]
  cases hn : s.usedMsgs with
  | succ n => exact .take hpc hfree hn
  | zero =>
    simp only [lt_irrefl, if_false]
    split
    · exact .empty hpc
    · exact .waitGet hpc hfree hn

theorem move_handOff {data : Msg cfg} (hpc : s.pc t = .inside)
    (hlock : s.lock = some (t, .handOff data)) :
    Move s a (s.handOff t data).1 (s.handOff t data).2 := by
  rw [handOff]
  cases hq : s.sched.waitq () with
  | nil => rw [WaitQs.unpend_nil hq]; exact .noWriter hpc hlock hq
  | cons u l => rw [WaitQs.unpend_cons hq]; exact .refill hpc hlock hq

theorem move_purge (hpc : s.pc t = .inside) (hlock : s.lock = some (t, .purge)) :
    Move s a (s.purge t).1 (s.purge t).2 := by
  rw [purge]
  cases hq : s.sched.waitq () with
  | nil => rw [WaitQs.unpend_nil hq]; exact .purged hpc hlock hq
  | cons u l => rw [WaitQs.unpend_cons hq]; exact .purgeOne hpc hlock hq

theorem move_advance (h : s.advance t = some (s', es)) : Move s a s' es := by
  rw [advance] at h
  split at h
  · simp at h
  · next hpc =>
    split at h
    · next u place hlock =>
      split at h
      · next hu =>
        subst hu
        split at h
        · have hm : Move s a _ _ := move_handOff hpc hlock
          rwa [Option.some.inj h] at hm
        · have hm : Move s a _ _ := move_purge hpc hlock
          rwa [Option.some.inj h] at hm
      · simp at h
    · simp at h
  · next hpc =>
    obtain ⟨hp, rfl, rfl⟩ := by simpa using h
    exact .resume (.inl hpc) hp
  · next hpc =>
    obtain ⟨hp, rfl, rfl⟩ := by simpa using h
    exact .resume (.inr hpc) hp

theorem calls_eq_some (h : s.calls t r = some (s', es)) :
    s.pc t = .outside ∧ s.lock = none ∧ r = (s', es) := by
  simpa [calls, and_assoc] using h

theorem move_of_step (h : s.step a = some (s', es)) : Move s a s' es := by
  cases a with
  | put t data w =>
    obtain ⟨hpc, hfree, hr⟩ := calls_eq_some h
    have hm : Move s (.put t data w) _ _ := move_putMsgInQueue data w true hpc hfree nofun
    rwa [hr] at hm
  | putFront t data =>
    obtain ⟨hpc, hfree, hr⟩ := calls_eq_some h
    have hm : Move s (.putFront t data) _ _ :=
      move_putMsgInQueue data .noWait false hpc hfree fun _ => rfl
    rwa [hr] at hm
  | get t data w =>
    obtain ⟨hpc, hfree, hr⟩ := calls_eq_some h
    have hm : Move s (.get t data w) _ _ := move_get data w hpc hfree
    rwa [hr] at hm
  | peek t =>
    obtain ⟨hpc, hfree, hr⟩ := calls_eq_some h
    cases hr
    exact .peek hpc hfree
  | peekAt t i =>
    obtain ⟨hpc, hfree, hr⟩ := calls_eq_some h
    cases hr
    exact .peekAt hpc hfree
  | purge t =>
    obtain ⟨hpc, hfree, hr⟩ := calls_eq_some h
    cases hr
    exact .purge hpc hfree
  | advance t => exact move_advance h
  | expire t =>
    obtain ⟨sched, hs, hr⟩ := Option.map_eq_some_iff.1 h
    cases hr
    exact .expire hs
  | timeout t =>
    obtain ⟨sched, hs, hr⟩ := Option.map_eq_some_iff.1 h
    cases hr
    exact .timeout hs

end State

end ZephyrRtos.Msgq
