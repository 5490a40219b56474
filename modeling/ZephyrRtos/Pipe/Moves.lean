import ZephyrRtos.Pipe.Model

namespace ZephyrRtos.Pipe

open Lib Sched Sys

variable {cfg : Config} {τ : Type} [DecidableEq τ]

inductive Goes (s : State cfg τ) (t : τ) : Section → Section → Prop
  | wakeReaders (hk : (s.call t).kind = .write) : Goes s t .top .wakeReaders
  | copy (hk : (s.call t).kind = .write) (he : s.pipeEmpty) : Goes s t .top .copy
  | alone (hk : (s.call t).kind = .write) (hw : s.waiting = 0) : Goes s t .top .fill
  | behind (hk : (s.call t).kind = .write) (he : ¬s.pipeEmpty) : Goes s t .top .fill
  | wakeWriters (hk : (s.call t).kind = .read) : Goes s t .top .wakeWriters
  | ahead (hk : (s.call t).kind = .read) (hf : ¬s.pipeFull) : Goes s t .top .drain
  | woken (hq : s.sched.waitq .data = []) : Goes s t .wakeReaders .fill
  | noReader (hq : s.sched.waitq .data = []) : Goes s t .copy .copied
  | rest (hlt : (s.call t).used < (s.call t).len) : Goes s t .copied .fill
  | room (hq : s.sched.waitq .space = []) : Goes s t .wakeWriters .drain

inductive Move (s : State cfg τ) : Action τ → State cfg τ → List (Event τ) → Prop
  | call {t kind data len w} (hpc : s.pc t = .outside) (hfree : s.lock = none) :
      Move s (.call t kind data len w) ((s.setCall t ⟨kind, data, len, 0, w⟩).enter t)
        [.called t kind len]
  | go {a t place place'} (hl : s.lock = some (t, place)) (hg : Goes s t place place') :
      Move s a (s.stay t place') []
  | wakeOne {a q u l} (hq : s.sched.waitq q = u :: l) :
      Move s a { s with sched := s.sched.wake u 0 } []
  | copyMore {a t u l n} (hl : s.lock = some (t, .copy)) (hq : s.sched.waitq .data = u :: l)
      (hn : n = (s.call t).len - (s.call t).used)
      (hlt : (s.call u).used + n < (s.call u).len) :
      Move s a ((s.transfer t u n).stay t .copied)
        [.accepted t ((s.call t).data.list (s.call t).used n),
          .delivered u ((s.call t).data.list (s.call t).used n)]
  | copyAll {a t u l n place} (hl : s.lock = some (t, .copy)) (hq : s.sched.waitq .data = u :: l)
      (hle : n ≤ (s.call t).len - (s.call t).used) (hn : n = (s.call u).len - (s.call u).used)
      (hp : place = .copy ∨ place = .copied ∧ (s.call t).len ≤ (s.call t).used + n) :
      Move s a ({ s.transfer t u n with sched := s.sched.wake u 0 }.stay t place)
        [.accepted t ((s.call t).data.list (s.call t).used n),
          .delivered u ((s.call t).data.list (s.call t).used n)]
  | copied {a t} (hl : s.lock = some (t, .copied)) (hle : (s.call t).len ≤ (s.call t).used) :
      Move s a (s.leave t) [.returned t (s.call t).rc (s.call t).bytes]
  | fill {a t buf n s' es} (hl : s.lock = some (t, .fill))
      (hput : s.buf.ringBufPut (s.call t).data (s.call t).used
        (((s.call t).len - (s.call t).used) % 2 ^ 32) = (buf, n))
      (hs : (s.moved t buf (s.call t).data n).proceed t = (s', es)) :
      Move s a s' (.accepted t ((s.call t).data.list (s.call t).used n) :: es)
  | drain {a t buf data n s' es} (hl : s.lock = some (t, .drain))
      (hget : s.buf.ringBufGet (s.call t).data (s.call t).used
        (((s.call t).len - (s.call t).used) % 2 ^ 32) = (buf, data, n))
      (hs : (s.moved t buf data n).proceed t = (s', es)) :
      Move s a s' (.delivered t (data.list (s.call t).used n) :: es)
  | giveUp {a t} (hl : s.lock = some (t, .waitFor)) :
      Move s a (s.leave t) [.timedOut t, .returned t (s.giveUp t) (s.call t).bytes]
  | pend {a t w} (hl : s.lock = some (t, .waitFor)) : Move s a (s.pendCurr t w) []
  | resume {a t} (hpc : s.pc t = .waiting) (hp : s.sched.pendedOn t = none) (hfree : s.lock = none)
      (hr : s.sched.swapRetval t = 0) :
      Move s a ({ s with waiting := s.waiting - 1 }.enter t) []
  | expired {a t} (hpc : s.pc t = .waiting) (hp : s.sched.pendedOn t = none) (hfree : s.lock = none)
      (hr : s.sched.swapRetval t ≠ 0) :
      Move s a ({ s with waiting := s.waiting - 1 }.leave t)
        [.returned t (if s.sched.swapRetval t = -eagain then s.giveUp t else s.sched.swapRetval t)
          (s.call t).bytes]
  | expire {a t sched} (h : s.sched.expire t = some sched) : Move s a { s with sched } []
  | timeout {a t sched} (h : s.sched.zThreadTimeout t = some sched) :
      Move s a { s with sched } (if s.sched.isThreadPending t then [.timedOut t] else [])

variable {s s' : State cfg τ} {t : τ} {a : Action τ} {es : List (Event τ)} {place : Section}

namespace State

theorem move_top (hl : s.lock = some (t, .top)) : Move s a (s.top t) [] := by
  rw [top]
  split
  · next hk =>
    split
    · next he =>
      split
      · exact .go hl (.wakeReaders hk)
      · split
        · exact .go hl (.copy hk he)
        · next hw => exact .go hl (.alone hk (not_not.1 hw))
    · next he => exact .go hl (.behind hk he)
  · next hk =>
    split
    · exact .go hl (.wakeWriters hk)
    · next hf => exact .go hl (.ahead hk hf)

theorem move_wakeAll (hl : s.lock = some (t, place))
    (hg : s.sched.waitq q = [] → Goes s t place place') : Move s a (s.wakeAll t q place') [] := by
  rw [wakeAll]
  cases hq : s.sched.waitq q with
  | nil => rw [WaitQs.unpend_nil hq]; exact .go hl (hg hq)
  | cons u l => rw [WaitQs.unpend_cons hq]; exact .wakeOne hq

theorem move_copy (hl : s.lock = some (t, .copy)) :
    Move s a (s.copyToPendingReader t).1 (s.copyToPendingReader t).2 := by
  rw [copyToPendingReader, zPriqSimpleBest]
  cases hq : s.sched.waitq .data with
  | nil => exact .go hl (.noReader hq)
  | cons u l =>
    simp only [List.head?_cons]
    split
    · exact .copyMore hl hq (by omega) ‹_›
    · split
      · have hm : Move s a _ _ := .copyAll hl hq (min_le_left ..)
          (show min _ ((s.call u).len - (s.call u).used) = _ by omega) (.inl rfl)
        simpa only [stay, transfer, setCall, hl] using hm
      · exact .copyAll hl hq (min_le_left ..) (by omega) (.inr ⟨rfl, by omega⟩)

theorem move_inSection (late : Bool) (hl : s.lock = some (t, place)) :
    Move s a (s.inSection t late place).1 (s.inSection t late place).2 := by
  cases place with
  | top => exact move_top hl
  | wakeReaders => exact move_wakeAll hl .woken
  | copy => exact move_copy hl
  | copied =>
    rw [inSection]
    split
    · exact .copied hl ‹_›
    · exact .go hl (.rest (not_le.1 ‹_›))
  | fill => exact .fill hl rfl rfl
  | wakeWriters => exact move_wakeAll hl .room
  | drain => exact .drain hl rfl rfl
  | waitFor =>
    rw [inSection, waitFor]
    split
    · exact .giveUp hl
    · exact .pend hl

theorem move_of_step (h : s.step a = some (s', es)) : Move s a s' es := by
  cases a with
  | call t kind data len w =>
    obtain ⟨⟨hpc, hfree⟩, rfl, rfl⟩ := by simpa [step] using h
    exact .call hpc hfree
  | advance t late =>
    simp only [step, advance] at h
    split at h
    · simp at h
    · split at h
      · next u place hl =>
        split at h
        · next hu =>
          subst hu
          have hm : Move s (.advance u late) _ _ := move_inSection late hl
          rwa [Option.some.inj h] at hm
        · simp at h
      · simp at h
    · next hpc =>
      split at h
      · next hp =>
        have hfree := Option.isNone_iff_eq_none.1 hp.2
        rw [resume] at h
        split at h <;> cases h
        · exact .expired hpc hp.1 hfree ‹_›
        · exact .resume hpc hp.1 hfree (not_not.1 ‹_›)
      · simp at h
  | expire t =>
    obtain ⟨sched, hs, hr⟩ := Option.map_eq_some_iff.1 h
    cases hr
    exact .expire hs
  | timeout t =>
    obtain ⟨sched, hs, hr⟩ := Option.map_eq_some_iff.1 h
    cases hr
    exact .timeout hs

end State

end ZephyrRtos.Pipe
