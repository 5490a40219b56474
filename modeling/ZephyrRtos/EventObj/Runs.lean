import ZephyrRtos.EventObj.Walk
import ZephyrRtos.Lib.Monitor

namespace ZephyrRtos.EventObj

open List hiding all

open Lib Sched

variable {τ : Type}

/-- What is in the event: a word, or one that a post has changed and not stashed. -/
inductive Word
  | stable (events : Bits)
  | posting (events clearEvents previous : Bits)
  deriving DecidableEq

namespace Word

/-- A post clears once what the waiters that clear have got from it, when all of them have been
looked at. -/
def on : Word → Event τ → Option Word
  | .stable events, .posted _ new mask =>
    some (.posting ((events &&& ~~~mask) ||| (new &&& mask)) 0 (events &&& mask))
  | .posting events clearEvents previous, .woken _ posted bits clear =>
    if posted = events then
      some (.posting events (if clear then clearEvents ||| bits else clearEvents) previous)
    else none
  | .posting events clearEvents previous, .stashed _ value =>
    if value = previous then some (.stable (events &&& ~~~clearEvents)) else none
  | .stable events, .polled _ desired options value =>
    if desired = 0 then if value = 0 then some (.stable events) else none
    else
      let events := if options.reset then 0 else events
      if value = areWaitConditionsMet desired events options.all then
        some (.stable (if options.clear then events &&& ~~~value else events))
      else none
  | .stable events, .waits _ _ options => some (.stable (if options.reset then 0 else events))
  | word, .timedOut _ | word, .returned .. => some word
  | _, _ => none

@[simp] theorem on_timedOut (word : Word) (t : τ) : word.on (.timedOut t) = some word := by
  cases word <;> rfl

@[simp] theorem on_returned (word : Word) (t : τ) (value : Bits) :
    word.on (.returned t value) = some word := by
  cases word <;> rfl

def bits : Word → Bits
  | .stable events | .posting events _ _ => events

end Word

def Event.thread : Event τ → τ
  | .posted t _ _ | .woken t _ _ _ | .stashed t _ | .polled t _ _ _ | .waits t _ _ | .timedOut t |
    .returned t _ => t

inductive Phase
  | idle
  | posting
  | waiting (desired : Bits) (options : Options)
  | woken (bits : Bits)
  | timedOut
  deriving DecidableEq

/-- A waiter is woken with those of its bits that are posted, all of them if it waits for all,
and returns them; one whose time is over returns 0. -/
def Phase.on : Phase → Event τ → Option Phase
  | .idle, .posted .. => some .posting
  | .posting, .stashed .. => some .idle
  | .idle, .polled .. => some .idle
  | .idle, .waits _ desired options => some (.waiting desired options)
  | .waiting desired options, .woken _ posted bits clear =>
    if bits = posted &&& desired ∧ bits ≠ 0 ∧ (options.all → bits = desired) ∧
      clear = options.clear then some (.woken bits) else none
  | .waiting .., .timedOut _ => some .timedOut
  | .woken bits, .returned _ value => if value = bits then some .idle else none
  | .timedOut, .returned _ value => if value = 0 then some .idle else none
  | _, _ => none

theorem met_eq_zero_and (h : areWaitConditionsMet desired current all = 0) :
    areWaitConditionsMet desired (current &&& mask) all = 0 := by
  have hsub : current &&& mask &&& desired = (current &&& desired) &&& mask := by
    rw [BitVec.and_assoc, BitVec.and_comm mask, ← BitVec.and_assoc]
  unfold areWaitConditionsMet at h ⊢
  dsimp only at h ⊢
  rw [hsub]
  split at h
  · rw [if_pos]
    grind
  · rw [h]
    simp

theorem met_ne_zero (h : areWaitConditionsMet desired current all ≠ 0) :
    areWaitConditionsMet desired current all = current &&& desired ∧
      (all → areWaitConditionsMet desired current all = desired) := by
  unfold areWaitConditionsMet at h ⊢
  dsimp only at h ⊢
  split at h
  · contradiction
  · next hne =>
    refine ⟨if_neg hne, fun hall => ?_⟩
    rw [if_neg hne]
    by_contra hd
    exact hne ⟨hall, hd⟩

namespace State

def word (s : State τ) : Word :=
  match s.lock with
  | none => .stable s.events
  | some holder => .posting holder.events holder.clearEvents holder.previous

variable [DecidableEq τ]

def phase (s : State τ) (t : τ) : Phase :=
  if s.waiting t then
    if s.sched.pendedOn t = some () then .waiting (s.threadEvents t) (s.eventOptions t)
    else if s.sched.swapRetval t = 0 then .woken (s.threadEvents t)
    else .timedOut
  else if s.lock.map Holder.thread = some t then .posting
  else .idle

structure Wf (s : State τ) : Prop where
  inOrder : s.sched.InOrder
  waits : ∀ t, s.sched.pendedOn t = some () → s.waiting t ∧ s.sched.swapRetval t = -eagain
  unmet : ∀ t, s.sched.pendedOn t = some () → ¬s.Hit s.word.bits t
  poster : ∀ holder, s.lock = some holder → s.waiting holder.thread = false

variable {s s' : State τ} {t u : τ} {es : List (Event τ)}

structure Traced (s s' : State τ) (es : List (Event τ)) : Prop where
  word : es.foldlM Word.on s.word = some s'.word
  calls : Follows Event.thread Phase.on es s.phase s'.phase

section

omit [DecidableEq τ]

theorem foldlM_woken (current clear previous : Bits) (l : List τ) :
    (l.map fun u => Event.woken u current (s.met current u) (s.eventOptions u).clear).foldlM Word.on
      (.posting current clear previous) = some (.posting current (s.consume current clear l) previous) := by
  induction l generalizing clear with
  | nil => rfl
  | cons u l ih =>
    rw [map_cons, foldlM_cons, Word.on, if_pos rfl]
    exact ih _

theorem consume_filter (current clear : Bits) (l : List τ) :
    s.consume current clear (l.filter fun u => s.met current u ≠ 0) = s.consume current clear l := by
  induction l generalizing clear with
  | nil => rfl
  | cons u l ih =>
    by_cases hu : s.met current u = 0
    · rw [filter_cons_of_neg (by simpa using hu), ih, consume, consume, foldl_cons, hu]
      simp
    · rw [filter_cons_of_pos (by simpa using hu)]
      exact ih _

end

theorem phase_congr (hw : s'.waiting t = s.waiting t) (hp : s'.sched.pendedOn t = s.sched.pendedOn t)
    (hr : s'.sched.swapRetval t = s.sched.swapRetval t) (he : s'.threadEvents t = s.threadEvents t)
    (ho : s'.eventOptions t = s.eventOptions t)
    (hl : s'.lock.map Holder.thread = some t ↔ s.lock.map Holder.thread = some t) :
    s'.phase t = s.phase t := by
  simp only [phase, hw, hp, hr, he, ho, hl]

theorem word_free (hl : s.lock = none) : s.word = .stable s.events := by
  rw [word, hl]

theorem phase_idle (hw : s.waiting t = false) (hl : s.lock = none) : s.phase t = .idle := by
  simp [phase, hw, hl]

theorem phase_pended (hw : s.waiting t) (hp : s.sched.pendedOn t = some ()) :
    s.phase t = .waiting (s.threadEvents t) (s.eventOptions t) := by
  simp [phase, hw, hp]

section

variable (hw : s.waiting t) (hp : s.sched.pendedOn t = none)
include hw hp

theorem phase_woken (hr : s.sched.swapRetval t = 0) : s.phase t = .woken (s.threadEvents t) := by
  simp [phase, hw, hp, hr]

theorem phase_timedOut (hr : s.sched.swapRetval t ≠ 0) : s.phase t = .timedOut := by
  simp [phase, hw, hp, hr]

end

namespace Wf

section

variable (h : s.Wf)
include h

theorem post (hw : Woken s posted (s.sched.waitq ()) s') (hout : s.waiting t = false) :
    Wf { s' with lock := some ⟨t, posted, clear, previous⟩ } := by
  have hpend : ∀ u, s'.sched.pendedOn u = some () →
      s.sched.pendedOn u = some () ∧ ¬s.Hit posted u := by
    intro u hu
    rw [hw.pendedOn] at hu
    split at hu
    · simp at hu
    · next hn => exact ⟨hu, fun hit => hn ⟨(h.inOrder.mem_iff u ()).2 hu, hit⟩⟩
  refine ⟨hw.inOrder, fun u hu => ?_, fun u hu => ?_, fun holder hh => ?_⟩
  · obtain ⟨hp, hit⟩ := hpend u hu
    rw [hw.same.2.2.1, hw.swapRetval, if_neg fun hm => hit hm.2]
    exact h.waits u hp
  · obtain ⟨-, hit⟩ := hpend u hu
    have hmet : s'.met posted u = s.met posted u :=
      met_congr (by rw [hw.threadEvents, if_neg fun hm => hit hm.2]) hw.same.2.1
    intro hit'
    have hposted : s'.met posted u ≠ 0 := hit'
    rw [hmet] at hposted
    exact hit hposted
  · cases hh
    rwa [hw.same.2.2.1]

theorem traced_post (hout : s.waiting t = false) (hfree : s.lock = none)
    (hposted : posted = (s.events &&& ~~~mask) ||| (new &&& mask))
    (hw : Woken s posted (s.sched.waitq ()) s') :
    Traced s { s' with
        lock := some ⟨t, posted, s.consume posted 0 (s.sched.waitq ()), s.events &&& mask⟩ }
      (.posted t new mask :: ((s.sched.waitq ()).filter fun u => s.met posted u ≠ 0).map fun u =>
        .woken u posted (s.met posted u) (s.eventOptions u).clear) := by
  constructor
  · rw [foldlM_cons, word_free hfree, Word.on, ← hposted]
    refine (foldlM_woken ..).trans ?_
    rw [consume_filter]
    rfl
  intro v
  rw [foldlM_cons]
  have hL : ∀ u, u ∈ ((s.sched.waitq ()).filter fun u => s.met posted u ≠ 0) ↔
      s.sched.pendedOn u = some () ∧ s.Hit posted u := by
    intro u
    rw [mem_filter, h.inOrder.mem_iff]
    simp [Hit]
  have hnd := (h.inOrder.nodup ()).filter fun u => s.met posted u ≠ 0
  generalize (s.sched.waitq ()).filter (fun u => s.met posted u ≠ 0) = L at hL hnd ⊢
  have hrest : ∀ p, v ∉ L → (L.map fun u => .woken u posted (s.met posted u)
      (s.eventOptions u).clear).foldlM (watch Event.thread Phase.on v) p = some p :=
    fun p hv => foldlM_watch_other p fun e he => by
      obtain ⟨u, hu, rfl⟩ := mem_map.1 he
      rintro rfl
      exact hv hu
  obtain rfl | hvt := eq_or_ne t v
  · have hno : t ∉ L := fun hm => by simp [(h.waits t ((hL t).1 hm).1).1] at hout
    simp only [watch, Event.thread, if_true, phase_idle hout hfree, Phase.on, Option.bind_eq_bind,
      Option.bind_some]
    rw [hrest _ hno]
    simp [phase, hw.same, hout]
  rw [watch, if_neg (by simpa [Event.thread] using hvt)]
  by_cases hv : v ∈ L
  · obtain ⟨hp, hit⟩ := (hL v).1 hv
    refine (foldlM_watch_map _ (fun _ => rfl) hnd hv).trans ?_
    have hmet := met_ne_zero hit
    have hmem : v ∈ s.sched.waitq () ∧ s.Hit posted v := ⟨(h.inOrder.mem_iff v ()).2 hp, hit⟩
    rw [phase_pended (h.waits v hp).1 hp, Phase.on, if_pos ⟨hmet.1, hit, hmet.2, rfl⟩, phase_woken]
    · simp [hw.threadEvents, if_pos hmem]
    · rw [hw.same.2.2.1]
      exact (h.waits v hp).1
    · simp [hw.pendedOn, if_pos hmem]
    · simp [hw.swapRetval, if_pos hmem]
  · have hmem : ¬(v ∈ s.sched.waitq () ∧ s.Hit posted v) := fun hm =>
      hv ((hL v).2 ⟨(h.inOrder.mem_iff v ()).1 hm.1, hm.2⟩)
    refine (hrest _ hv).trans (congrArg some (phase_congr ?_ ?_ ?_ ?_ ?_ ?_).symm)
    · rw [hw.same.2.2.1]
    · rw [hw.pendedOn, if_neg hmem]
    · rw [hw.swapRetval, if_neg hmem]
    · rw [hw.threadEvents, if_neg hmem]
    · rw [hw.same.2.1]
    · simp [hfree, hvt]

theorem stash (hl : s.lock = some holder) :
    (s.stash holder).1.Wf ∧ Traced s (s.stash holder).1 (s.stash holder).2 := by
  have hword : s.word = .posting holder.events holder.clearEvents holder.previous := by
    rw [word, hl]
  have hout := h.poster holder hl
  refine ⟨⟨h.inOrder, h.waits, fun u hu hit => ?_, fun _ hh => ?_⟩, ?_, .of_mem (fun v hv => ?_) ?_⟩
  · have hun := h.unmet u hu
    rw [hword] at hun
    exact hit (met_eq_zero_and (not_not.1 hun))
  · cases hh
  · rw [hword]
    simp [State.stash, Word.on, word]
  · refine phase_congr rfl rfl rfl rfl rfl ?_
    have hne : holder.thread ≠ v := hv _ (.head _)
    simp [State.stash, hl, hne]
  · simp [State.stash, watch, Event.thread, phase, hout, hl, Phase.on]

theorem pendedOn_none (hout : s.waiting t = false) : s.sched.pendedOn t = none := by
  cases hp : s.sched.pendedOn t with
  | none => rfl
  | some q => simp [(h.waits t hp).1] at hout

theorem clear (hfree : s.lock = none) {events : Bits} (mask : Bits)
    (he : events = s.events &&& mask) : Wf { s with events } := by
  refine ⟨h.inOrder, h.waits, fun u hu hit => ?_, h.poster⟩
  have hun := h.unmet u hu
  simp only [word, hfree, he] at hit hun
  exact hit (met_eq_zero_and (not_not.1 hun))

theorem pend (hout : s.waiting t = false) (hfree : s.lock = none) {events : Bits}
    {options : Options} (hmet : areWaitConditionsMet events s.events options.all = 0)
    (timeout : KTimeout) :
    Wf { s with
      threadEvents := Function.update s.threadEvents t events
      eventOptions := Function.update s.eventOptions t options
      sched := s.sched.pendLocked t () timeout
      waiting := Function.update s.waiting t true } := by
  have hp : s.sched.pendedOn t = none := h.pendedOn_none hout
  refine ⟨h.inOrder.pendLocked hp, fun u hu => ?_, fun u hu => ?_, fun holder hh => ?_⟩
  · obtain rfl | hut := eq_or_ne u t
    · simp
    · simpa [hut] using h.waits u (by simpa [hut] using hu)
  · obtain rfl | hut := eq_or_ne u t
    · simpa [Hit, met, word, hfree, Word.bits] using hmet
    · simpa [Hit, met, word, hut] using
        h.unmet u (by simpa [hut] using hu)
  · simp [hfree] at hh

theorem wait (hout : s.waiting t = false) (hfree : s.lock = none) (events : Bits)
    (options : Options) (timeout : KTimeout) :
    (s.waitInternal t events options timeout).1.Wf ∧
      Traced s (s.waitInternal t events options timeout).1
        (s.waitInternal t events options timeout).2 := by
  have hidle := phase_idle hout hfree
  have hword := word_free hfree
  unfold waitInternal
  split
  · next hz =>
    refine ⟨h, by simp [hword, Word.on], .of_mem (fun v hv => rfl) ?_⟩
    simp [watch, Event.thread, hidle, Phase.on]
  next hz =>
  have hreset : (if options.reset then { s with events := 0 } else s) =
      { s with events := if options.reset then 0 else s.events } := by
    split <;> rfl
  have h₁ : Wf { s with events := if options.reset then 0 else s.events } := by
    split
    · exact h.clear hfree 0 (by simp)
    · exact h
  -- the word as the wait's conditions see it
  have hstep : ∀ (w : State τ) (value : Bits), w.lock = none →
      value = areWaitConditionsMet events (if options.reset then 0 else s.events) options.all →
      w.events = (if options.clear then (if options.reset then 0 else s.events) &&& ~~~value
        else if options.reset then 0 else s.events) →
      w.phase = s.phase → Traced s w [.polled t events options value] := by
    intro w value hl hv he hp
    refine ⟨?_, .of_mem (fun v hv => congrFun hp v) ?_⟩
    · rw [foldlM_cons, hword, Word.on, if_neg hz]
      simp only
      rw [if_pos hv, word_free hl, he]
      rfl
    · simp [watch, Event.thread, hp, hidle, Phase.on]
  dsimp only
  rw [hreset]
  dsimp only
  generalize hev : (if options.reset then 0 else s.events) = e at h₁ hstep ⊢
  split
  · next hrv =>
    split
    · next hc =>
      exact ⟨h₁.clear hfree _ rfl, hstep _ _ hfree rfl (by simp [hc]) rfl⟩
    · next hc => exact ⟨h₁, hstep _ _ hfree rfl (by simp [hc]) rfl⟩
  next hrv =>
  have hrv := not_not.1 hrv
  split
  · refine ⟨h₁, hstep _ _ hfree hrv.symm ?_ rfl⟩
    rw [show ~~~(0 : Bits) = .allOnes 32 by decide, BitVec.and_allOnes, ite_self]
  refine ⟨h₁.pend hout hfree hrv timeout, ?_, .of_mem (fun v hv => ?_) ?_⟩
  · rw [foldlM_cons, hword, Word.on, hev]
    simp only [word, hfree]
    rfl
  · have hvt : v ≠ t := (hv _ (.head _)).symm
    exact phase_congr (by simp [hvt]) (by simp [hvt]) (by simp [hvt]) (by simp [hvt])
      (by simp [hvt]) .rfl
  have hphase : s.phase t = .idle → (State.phase { s with
      events := e
      threadEvents := Function.update s.threadEvents t events
      eventOptions := Function.update s.eventOptions t options
      sched := s.sched.pendLocked t () timeout
      waiting := Function.update s.waiting t true } t) = .waiting events options := fun _ =>
    (phase_pended (by simp) (by simp)).trans (by simp)
  simp [watch, Event.thread, hidle, Phase.on, hphase]

theorem advance (hs : s.advance t = some (s', es)) : s'.Wf ∧ Traced s s' es := by
  unfold State.advance at hs
  split at hs
  · next hw =>
    obtain ⟨hp, hs⟩ := Option.ite_none_right_eq_some.1 hs
    cases hs
    refine ⟨⟨h.inOrder, fun u hu => ?_, h.unmet, fun holder hh => ?_⟩, by simp [word],
      .of_mem (fun v hv => ?_) ?_⟩
    · have hut : u ≠ t := by
        rintro rfl
        simp [hp] at hu
      simpa [hut] using h.waits u hu
    · obtain hht | hht := eq_or_ne holder.thread t
      · simp [hht]
      · simpa [hht] using h.poster holder hh
    · have hvt : v ≠ t := (hv _ (.head _)).symm
      exact phase_congr (by simp [hvt]) rfl rfl rfl rfl .rfl
    have hlock : s.lock.map Holder.thread ≠ some t := fun hm => by
      obtain ⟨holder, hl, rfl⟩ := Option.map_eq_some_iff.1 hm
      simp [h.poster holder hl] at hw
    have hidle : State.phase { s with waiting := Function.update s.waiting t false } t = .idle := by
      simpa [phase] using hlock
    by_cases hr : s.sched.swapRetval t = 0
    · simp [watch, Event.thread, phase_woken hw hp hr, Phase.on, hr, hidle]
    · simp [watch, Event.thread, phase_timedOut hw hp hr, Phase.on, hr, hidle]
  · split at hs
    · next holder hl =>
      obtain ⟨-, hs⟩ := Option.ite_none_right_eq_some.1 hs
      cases hs
      exact h.stash hl
    · contradiction

theorem step (hs : s.step scalable a = some (s', es)) : s'.Wf ∧ Traced s s' es := by
  have hcalls : ∀ {t r}, s.calls t r = some (s', es) →
      s.waiting t = false ∧ s.lock = none ∧ r = (s', es) := fun hc => by
    obtain ⟨⟨hout, hfree⟩, hr⟩ := Option.ite_none_right_eq_some.1 hc
    exact ⟨hout, by simpa using hfree, Option.some.inj hr⟩
  cases a with
  | post t call =>
    obtain ⟨hout, hfree, hr⟩ := hcalls hs
    obtain ⟨w, head, heq, hw⟩ := woken_waitqWalk h.inOrder scalable
      ((s.events &&& ~~~call.args.2) ||| (call.args.1 &&& call.args.2))
    simp only [postInternal, heq] at hr
    obtain ⟨rfl, rfl⟩ := hr
    exact ⟨h.post hw hout, h.traced_post hout hfree rfl hw⟩
  | wait t call events timeout =>
    obtain ⟨hout, hfree, hr⟩ := hcalls hs
    have hwait := h.wait hout hfree events call.options timeout
    rwa [hr] at hwait
  | advance t => exact h.advance hs
  | expire t =>
    obtain ⟨sched, hx, hs⟩ := Option.map_eq_some_iff.1 hs
    cases hs
    obtain ⟨hp, hr⟩ := WaitQs.expire_fields hx
    refine ⟨⟨h.inOrder.expire hx, fun u hu => ?_, fun u hu => ?_, h.poster⟩, rfl, .quiet fun v => ?_⟩
    · rw [hr]
      exact h.waits u (hp ▸ hu)
    · exact h.unmet u (hp ▸ hu)
    · exact phase_congr rfl (congrFun hp v) (congrFun hr v) rfl rfl .rfl
  | timeout t =>
    obtain ⟨sched, hx, hs⟩ := Option.map_eq_some_iff.1 hs
    cases hs
    obtain ⟨hp, hr⟩ := WaitQs.timeout_fields hx
    have hsub : ∀ u, sched.pendedOn u = some () → s.sched.pendedOn u = some () := by
      intro u hu
      obtain rfl | hut := eq_or_ne u t
      · simp [hp] at hu
      · simpa [hp, hut] using hu
    refine ⟨⟨h.inOrder.zThreadTimeout hx, fun u hu => ?_, fun u hu => ?_, h.poster⟩, ?_, ?_⟩
    · rw [hr]
      exact h.waits u (hsub u hu)
    · exact h.unmet u (hsub u hu)
    · split <;> simp [word]
    split
    · next hn =>
      refine .quiet fun v => phase_congr rfl ?_ (congrFun hr v) rfl rfl .rfl
      rw [hp, ← hn, Function.update_eq_self]
    · next hn =>
      have hpt : s.sched.pendedOn t = some () := by
        cases hq : s.sched.pendedOn t with
        | none => exact absurd hq hn
        | some q => rfl
      obtain ⟨hw, hret⟩ := h.waits t hpt
      refine .of_mem (fun v hv => ?_) ?_
      · have hvt : v ≠ t := (hv _ (.head _)).symm
        exact phase_congr rfl (by simp [hp, hvt]) (congrFun hr v) rfl rfl .rfl
      · have hlate : State.phase { s with sched } t = .timedOut :=
          phase_timedOut hw (by simp [hp]) (by simp [hr, hret, eagain])
        simp [watch, Event.thread, phase_pended hw hpt, Phase.on, hlate]

end

theorem init (prio : τ → ℤ) (threadEvents : τ → Bits) (eventOptions : τ → Options) :
    (State.init prio threadEvents eventOptions).Wf :=
  ⟨.init prio, by simp [State.init, WaitQs.init], by simp [State.init, WaitQs.init],
    by simp [State.init]⟩

end Wf

end State

variable [DecidableEq τ] {s : State τ} {es : List (Event τ)}

/-- When the lock is free, nobody waits for what is in the event; the event is what its posts,
clears and waits make of it, and a waiter gets those of its bits that are posted. -/
theorem event_wakes_waiters {scalable : Bool} {prio : τ → ℤ} {threadEvents : τ → Bits}
    {eventOptions : τ → Options}
    (h : Reaches (eventObj scalable prio threadEvents eventOptions) (fun _ _ => True) es s) :
    (s.lock = none → ∀ t, s.sched.pendedOn t = some () → areWaitConditionsMet (s.threadEvents t)
      s.events (s.eventOptions t).all = 0) ∧
    es.foldlM Word.on (.stable 0) = some s.word ∧
    Follows Event.thread Phase.on es (fun _ => .idle) s.phase := by
  have hinv : s.Wf ∧ (State.init prio threadEvents eventOptions).Traced s es := by
    refine h.invariant
      (I := fun es s => s.Wf ∧ (State.init prio threadEvents eventOptions).Traced s es)
      ⟨.init .., rfl, .quiet fun _ => rfl⟩ fun es s a s' es' hi _ hs => ?_
    obtain ⟨hwf, ht⟩ := hi.1.step hs
    refine ⟨hwf, ?_, hi.2.calls.append ht.calls⟩
    rw [foldlM_append, hi.2.word]
    exact ht.word
  refine ⟨fun hfree t ht => ?_, hinv.2.word, hinv.2.calls⟩
  have hun := not_not.1 (hinv.1.unmet t ht)
  rwa [State.word_free hfree] at hun

/-- A post wakes a waiter that keeps its bit and one that clears it, and not one that waits for
another bit too. -/
theorem event_wakes_waiters_mixed : ∃ es s,
    Reaches (eventObj true (fun _ : Fin 4 => 0) (fun _ => 0) fun _ => ⟨false, false, false⟩)
      (fun _ _ => True) es s ∧
    .returned 0 1 ∈ es ∧ .returned 2 1 ∈ es ∧ s.word = .stable 0 ∧
    s.sched.pendedOn 1 = some () ∧ areWaitConditionsMet (s.threadEvents 1) s.events
      (s.eventOptions 1).all = 0 := by
  obtain ⟨es, s, hrun, h0, h2, hfree, hword, hp⟩ := Reaches.of_exec
    (eventObj true (fun _ : Fin 4 => 0) (fun _ => 0) fun _ => ⟨false, false, false⟩)
    (fun _ _ => True)
    [.wait 0 (.wait false) 3 .forever, .wait 1 (.waitAll false) 3 .forever,
      .wait 2 (.waitSafe false) 1 .ticks, .post 3 (.post 1), .advance 0, .advance 3, .advance 2]
    (fun es s => .returned 0 1 ∈ es ∧ .returned 2 1 ∈ es ∧ s.lock.isNone ∧
      s.word = .stable 0 ∧ s.sched.pendedOn 1 = some ()) (by decide +kernel)
  have hun := (event_wakes_waiters hrun).1 (by simpa using hfree) 1 hp
  exact ⟨es, s, hrun, h0, h2, hword, hp, hun⟩

end ZephyrRtos.EventObj
