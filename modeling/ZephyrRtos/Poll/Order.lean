import ZephyrRtos.Lib.Run
import ZephyrRtos.Sched.PriorityQ

/-! `kernel/poll.c`: the list of the poll events of an object, and its order. -/

namespace ZephyrRtos.Poll

open List Function Lib Sched

/-- `struct z_poller`, which is a part of a `struct k_thread` or of a `struct k_work_poll`. -/
inductive Poller (τ ω : Type)
  | thread (t : τ)
  | work (w : ω)
  deriving DecidableEq

variable {τ ω ε : Type}

section AddEvent

-- what stands where a thread would have its priority, for a work item and for `NULL`
variable (stray : Option ω → ℤ) (prio : τ → ℤ)

def threadPrio : Option (Poller τ ω) → ℤ
  | some (.thread t) => prio t
  | some (.work w) => stray (some w)
  | none => stray none

variable (pollerOf : ε → Option (Poller τ ω)) (event : ε) (poller : Poller τ ω)

/-- The loop of `add_event`, with the pollers whose priorities are read. -/
def scanEvents : List ε → List ε × List (Option (Poller τ ω))
  | [] => ([event], [])
  | pending :: events =>
    if 0 < zSchedPrioCmp (threadPrio stray prio) (some poller) (pollerOf pending) then
      (event :: pending :: events, [some poller, pollerOf pending])
    else
      let (rest, reads) := scanEvents events
      (pending :: rest, some poller :: pollerOf pending :: reads)

def addEvent (events : List ε) : List ε × List (Option (Poller τ ω)) :=
  match events.getLast? with
  | none => (events ++ [event], [])
  | some pending =>
    if 0 < zSchedPrioCmp (threadPrio stray prio) (pollerOf pending) (some poller) then
      (events ++ [event], [pollerOf pending, some poller])
    else
      let (rest, reads) := scanEvents stray prio pollerOf event poller events
      (rest, pollerOf pending :: some poller :: reads)

variable {stray prio pollerOf event poller} {rank : ε → ℤ} {events : List ε}

section

variable (hevent : threadPrio stray prio (some poller) = rank event)
  (hevents : ∀ e ∈ events, threadPrio stray prio (pollerOf e) = rank e)
include hevent hevents

theorem scanEvents_fst :
    (scanEvents stray prio pollerOf event poller events).1 = zPriqSimpleAdd rank event events := by
  induction events with
  | nil => rfl
  | cons pending events ih =>
    rw [forall_mem_cons] at hevents
    simp only [scanEvents, zPriqSimpleAdd, prioCmp_pos, hevent, hevents.1]
    split
    · rfl
    · rw [← ih hevents.2]

theorem keyed_addEvent (hs : (keyed rank events).Pairwise fun x y => x.2 ≤ y.2) :
    keyed rank (addEvent stray prio pollerOf event poller events).1 =
      insertStable (event, rank event) (keyed rank events) := by
  unfold addEvent
  split
  · next hlast =>
    rw [getLast?_eq_none_iff.1 hlast]
    rfl
  · next pending hlast =>
    obtain ⟨front, rfl⟩ := getLast?_eq_some_iff.1 hlast
    simp only [prioCmp_pos, hevent, hevents pending (by simp)]
    split
    · next hlt =>
      rw [keyed_append] at hs
      rw [keyed_append, ← append_nil (keyed rank (front ++ [pending])), insertStable_append,
        append_nil]
      · rfl
      intro x hx
      rw [keyed_append] at hx
      obtain hx | hx := mem_append.1 hx
      · have hpending : (pending, rank pending) ∈ keyed rank [pending] := mem_keyed.2 (by simp)
        exact ((pairwise_append.1 hs).2.2 x hx _ hpending).trans hlt.le
      · simp only [keyed, map_singleton, mem_singleton] at hx
        rw [hx]
        exact hlt.le
    · rw [scanEvents_fst hevent hevents, keyed_simpleAdd]

end

theorem mem_scanEvents_snd {p : Option (Poller τ ω)}
    (hp : p ∈ (scanEvents stray prio pollerOf event poller events).2) :
    p = some poller ∨ ∃ e ∈ events, p = pollerOf e := by
  induction events with
  | nil => simp [scanEvents] at hp
  | cons pending events ih =>
    simp only [scanEvents] at hp
    split at hp
    · simp only [mem_cons, not_mem_nil, or_false] at hp
      exact hp.imp_right fun h => ⟨pending, by simp, h⟩
    · simp only [mem_cons] at hp
      obtain rfl | rfl | hp := hp
      · exact .inl rfl
      · exact .inr ⟨pending, by simp, rfl⟩
      · exact (ih hp).imp_right fun ⟨e, he, h⟩ => ⟨e, mem_cons_of_mem _ he, h⟩

theorem mem_addEvent_snd {p : Option (Poller τ ω)}
    (hp : p ∈ (addEvent stray prio pollerOf event poller events).2) :
    events ≠ [] ∧ (p = some poller ∨ ∃ e ∈ events, p = pollerOf e) := by
  unfold addEvent at hp
  split at hp
  · simp at hp
  · next pending hlast =>
    have hmem : pending ∈ events := mem_of_getLast? hlast
    refine ⟨ne_nil_of_mem hmem, ?_⟩
    split at hp
    · simp only [mem_cons, not_mem_nil, or_false] at hp
      exact hp.symm.imp_right fun h => ⟨pending, hmem, h⟩
    · simp only [mem_cons] at hp
      obtain rfl | rfl | hp := hp
      · exact .inr ⟨pending, hmem, rfl⟩
      · exact .inl rfl
      · exact mem_scanEvents_snd hp

end AddEvent

/-- The threads, the events and the `poll_events` list of an object; and, for what the list should
be, the events in the order of their registrations and the threads that made these. -/
structure State (τ ω ε : Type) where
  prio : τ → ℤ
  pollerOf : ε → Option (Poller τ ω)
  pollEvents : List ε
  arrived : List ε
  registrant : ε → τ

inductive Action (τ ω ε : Type)
  | poll (t : τ) (event : ε)
  | submit (t : τ) (w : ω) (event : ε)
  | clear (event : ε)
  | handle
  | setPrio (t : τ) (p : ℤ)

inductive Event (τ ω ε : Type)
  | reads (p : Option (Poller τ ω))
  | signals (event : ε)
  deriving DecidableEq

namespace State

variable [DecidableEq ε] (stray : Option ω → ℤ) (s : State τ ω ε)

def rank (event : ε) : ℤ := s.prio (s.registrant event)

/-- `register_event`, in `k_poll` or in `k_work_poll_submit` of `t`. -/
def registerEvent (t : τ) (event : ε) (poller : Poller τ ω) :
    State τ ω ε × List (Event τ ω ε) :=
  let added := addEvent stray s.prio s.pollerOf event poller s.pollEvents
  ({ s with
    pollEvents := added.1
    pollerOf := update s.pollerOf event (some poller)
    arrived := s.arrived ++ [event]
    registrant := update s.registrant event t }, added.2.map .reads)

def clearEventRegistration (event : ε) : State τ ω ε :=
  { s with
    pollerOf := update s.pollerOf event none
    pollEvents := s.pollEvents.erase event
    arrived := s.arrived.erase event }

/-- `z_handle_obj_poll_events`, of which `signal_poll_event` leaves the list alone. -/
def zHandleObjPollEvents : State τ ω ε × Option ε :=
  match s.pollEvents with
  | [] => (s, none)
  | event :: events =>
    ({ s with
      pollEvents := events
      pollerOf := update s.pollerOf event none
      arrived := s.arrived.erase event }, some event)

structure Inv : Prop where
  sorted : StableSort (keyed s.rank s.pollEvents) (keyed s.rank s.arrived)
  nodup : s.arrived.Nodup
  pollers : ∀ event ∈ s.pollEvents, s.pollerOf event = some (.thread (s.registrant event)) ∨
    (∃ w, s.pollerOf event = some (.work w)) ∧ s.pollEvents = [event]

variable {s} {t : τ} {event : ε} {poller : Poller τ ω}

theorem Inv.perm (h : s.Inv) : s.pollEvents.Perm s.arrived := by
  simpa only [map_fst_keyed] using h.sorted.perm.map Prod.fst

theorem Inv.registerEvent (h : s.Inv) (hevent : event ∉ s.pollEvents)
    (hthreads : ∀ e ∈ s.pollEvents, s.pollerOf e = some (.thread (s.registrant e)))
    (hpoller : poller = .thread t ∨ (∃ w, poller = .work w) ∧ s.pollEvents = []) :
    (s.registerEvent stray t event poller).1.Inv := by
  have hne : ∀ e ∈ s.pollEvents, e ≠ event := fun e he => ne_of_mem_of_not_mem he hevent
  have hold : ∀ e ∈ s.pollEvents, update s.registrant event t e = s.registrant e :=
    fun e he => update_of_ne (hne e he) _ _
  generalize hr : s.registerEvent stray t event poller = r
  have hrank : ∀ e ∈ s.pollEvents, r.1.rank e = s.rank e := by
    intro e he
    rw [← hr]
    exact congrArg s.prio (hold e he)
  have hkeyed : keyed r.1.rank r.1.pollEvents =
      insertStable (event, r.1.rank event) (keyed s.rank s.pollEvents) := by
    rw [← keyed_congr hrank, ← hr]
    obtain rfl | ⟨-, hnil⟩ := hpoller
    · refine keyed_addEvent (congrArg s.prio (update_self event t s.registrant).symm)
        (fun e he => ?_) ?_
      · rw [hthreads e he]
        exact congrArg s.prio (hold e he).symm
      · rw [hr, keyed_congr hrank]
        exact h.sorted.sorted
    · simp only [State.registerEvent, hnil]
      rfl
  have harrived : keyed r.1.rank r.1.arrived =
      keyed s.rank s.arrived ++ [(event, r.1.rank event)] := by
    rw [← keyed_congr fun e he => hrank e (h.perm.mem_iff.2 he), ← hr]
    exact keyed_append
  refine ⟨?_, ?_, fun e he => ?_⟩
  · rw [hkeyed, harrived]
    exact h.sorted.insert _
  · rw [← hr]
    exact nodup_append'.2 ⟨h.nodup, nodup_singleton _,
      by simpa using fun he => hevent (h.perm.mem_iff.2 he)⟩
  have hmem : (e, r.1.rank e) ∈ keyed r.1.rank r.1.pollEvents := mem_keyed.2 ⟨he, rfl⟩
  rw [hkeyed, mem_insertStable] at hmem
  rw [← hr]
  obtain heq | hmem := hmem
  · obtain rfl := congrArg Prod.fst heq
    obtain rfl | ⟨⟨w, rfl⟩, hnil⟩ := hpoller
    · refine .inl ?_
      show update s.pollerOf _ _ _ = some (.thread (update s.registrant _ t _))
      rw [update_self, update_self]
    · refine .inr ⟨⟨w, update_self ..⟩, ?_⟩
      simp only [State.registerEvent, hnil]
      rfl
  · have he := (mem_keyed.1 hmem).1
    refine .inl ?_
    show update s.pollerOf event _ e = some (.thread (update s.registrant event t e))
    rw [hold e he, update_of_ne (hne e he), hthreads e he]

theorem Inv.clear (h : s.Inv) (event : ε) : (s.clearEventRegistration event).Inv := by
  have hnodup := h.perm.nodup_iff.2 h.nodup
  refine ⟨?_, h.nodup.erase _, fun e he => ?_⟩
  · have := h.sorted.dropKey event
    rw [dropKey_keyed hnodup, dropKey_keyed h.nodup] at this
    exact this
  obtain ⟨hne, he⟩ := hnodup.mem_erase_iff.1 he
  have hpoller : (s.clearEventRegistration event).pollerOf e = s.pollerOf e := update_of_ne hne _ _
  rw [hpoller]
  refine (h.pollers e he).imp_right fun ⟨hw, hl⟩ => ⟨hw, ?_⟩
  show s.pollEvents.erase event = [e]
  rw [hl]
  exact erase_of_not_mem (by simpa using hne.symm)

theorem Inv.handle (h : s.Inv) : s.zHandleObjPollEvents.1.Inv := by
  unfold zHandleObjPollEvents
  split
  · exact h
  · next event events hl =>
    have hclear := h.clear event
    unfold clearEventRegistration at hclear
    rwa [hl, erase_cons_head] at hclear

theorem reads_registerEvent
    (hthreads : ∀ e ∈ s.pollEvents, s.pollerOf e = some (.thread (s.registrant e)))
    (hpoller : poller = .thread t ∨ s.pollEvents = []) {p : Option (Poller τ ω)}
    (hp : .reads p ∈ (s.registerEvent stray t event poller).2) : ∃ u, p = some (.thread u) := by
  obtain ⟨q, hq, hpq⟩ := mem_map.1 hp
  obtain rfl := Event.reads.inj hpq
  obtain ⟨hne, rfl | ⟨e, he, rfl⟩⟩ := mem_addEvent_snd hq
  · exact ⟨t, congrArg some (hpoller.resolve_right hne)⟩
  · exact ⟨_, hthreads e he⟩

variable [DecidableEq τ]

theorem Inv.setPrio (h : s.Inv) (p : ℤ)
    (hfree : ∀ event ∈ s.pollEvents, s.pollerOf event ≠ some (.thread t)) :
    Inv { s with prio := update s.prio t p } := by
  refine ⟨?_, h.nodup, h.pollers⟩
  by_cases hw : ∃ event w, s.pollerOf event = some (.work w) ∧ s.pollEvents = [event]
  · obtain ⟨event, -, -, hl⟩ := hw
    have harrived : s.arrived = [event] := perm_singleton.1 (hl ▸ h.perm.symm)
    rw [hl, harrived]
    exact StableSort.nil.insert _
  have hrank : ∀ e ∈ s.pollEvents, update s.prio t p (s.registrant e) = s.rank e := by
    intro e he
    refine update_of_ne (fun heq => hfree e he ?_) _ _
    rw [← heq]
    exact (h.pollers e he).resolve_right fun ⟨⟨w, hw'⟩, hl⟩ => hw ⟨e, w, hw', hl⟩
  have hsorted := h.sorted
  rwa [← keyed_congr hrank, ← keyed_congr fun e he => hrank e (h.perm.mem_iff.2 he)] at hsorted

variable (s) in
/-- An event is registered by one caller at a time. -/
def step : Action τ ω ε → Option (State τ ω ε × List (Event τ ω ε))
  | .poll t event =>
    if event ∈ s.pollEvents then none else some (s.registerEvent stray t event (.thread t))
  | .submit t w event =>
    if event ∈ s.pollEvents then none else some (s.registerEvent stray t event (.work w))
  | .clear event => some (s.clearEventRegistration event, [])
  | .handle => some (s.zHandleObjPollEvents.1, (s.zHandleObjPollEvents.2.map .signals).toList)
  | .setPrio t p => some ({ s with prio := update s.prio t p }, [])

variable (s) in
/-- `poller_thread` is not asked for the thread of a work item, and no thread of the list changes its
priority. -/
def Comparable : Action τ ω ε → Prop
  | .poll _ _ => ∀ event ∈ s.pollEvents, ∀ w, s.pollerOf event ≠ some (.work w)
  | .submit _ _ _ => s.pollEvents = []
  | .setPrio t _ => ∀ event ∈ s.pollEvents, s.pollerOf event ≠ some (.thread t)
  | _ => True

variable (s) in
instance [Fintype ω] [DecidableEq ω] : (a : Action τ ω ε) → Decidable (s.Comparable a)
  | .poll _ _ => inferInstanceAs (Decidable (∀ event ∈ s.pollEvents, _))
  | .submit _ _ _ => inferInstanceAs (Decidable (_ = []))
  | .setPrio _ _ => inferInstanceAs (Decidable (∀ event ∈ s.pollEvents, _))
  | .clear _ | .handle => .isTrue trivial

theorem Inv.threads (h : s.Inv) (hw : ∀ event ∈ s.pollEvents, ∀ w, s.pollerOf event ≠ some (.work w)) :
    ∀ event ∈ s.pollEvents, s.pollerOf event = some (.thread (s.registrant event)) :=
  fun event he => (h.pollers event he).resolve_right fun ⟨⟨w, hw'⟩, _⟩ => hw event he w hw'

theorem Inv.step {a : Action τ ω ε} (h : s.Inv) (ha : s.Comparable a)
    (hstep : s.step stray a = some (s', es)) :
    s'.Inv ∧ ∀ p, .reads p ∈ es → ∃ t, p = some (.thread t) := by
  cases a with
  | poll t event =>
    obtain ⟨hevent, hr⟩ := Option.ite_none_left_eq_some.1 hstep
    cases hr
    exact ⟨h.registerEvent stray hevent (h.threads ha) (.inl rfl),
      fun p => reads_registerEvent stray (h.threads ha) (.inl rfl)⟩
  | submit t w event =>
    obtain ⟨hevent, hr⟩ := Option.ite_none_left_eq_some.1 hstep
    cases hr
    have hthreads := h.threads (by simp [show s.pollEvents = [] from ha])
    exact ⟨h.registerEvent stray hevent hthreads (.inr ⟨⟨w, rfl⟩, ha⟩),
      fun p => reads_registerEvent stray (t := t) hthreads (.inr ha)⟩
  | clear event =>
    cases hstep
    exact ⟨h.clear event, by simp⟩
  | handle =>
    cases hstep
    exact ⟨h.handle, by simp⟩
  | setPrio t p =>
    cases hstep
    exact ⟨h.setPrio p ha, by simp⟩

end State

variable [DecidableEq τ] [DecidableEq ε]

def polled (stray : Option ω → ℤ) (prio : τ → ℤ) (registrant : ε → τ) :
    System (State τ ω ε) (Action τ ω ε) (Event τ ω ε) :=
  ⟨⟨prio, fun _ => none, [], [], registrant⟩, fun s a => s.step stray a⟩

/-- The list is in the order of the priorities and then of the registrations, the first of the
best priority is signalled, and only priorities of threads are read. -/
theorem poll_events_ordered {stray : Option ω → ℤ} {prio : τ → ℤ} {registrant : ε → τ}
    {es : List (Event τ ω ε)} {s : State τ ω ε}
    (h : Reaches (polled stray prio registrant) State.Comparable es s) :
    StableSort (keyed s.rank s.pollEvents) (keyed s.rank s.arrived) ∧
      s.zHandleObjPollEvents.2 = s.arrived.argmin s.rank ∧
      ∀ p, .reads p ∈ es → ∃ t, p = some (.thread t) := by
  obtain ⟨hinv, hreads⟩ : s.Inv ∧ ∀ p, .reads p ∈ es → ∃ t, p = some (.thread t) := by
    refine Run.invariant (I := fun es s => s.Inv ∧ ∀ p, .reads p ∈ es → ∃ t, p = some (.thread t))
      ⟨⟨.nil, .nil, by simp [polled]⟩, by simp⟩ (fun es t a u es' hI ha hstep => ?_) h
    obtain ⟨hinv, hreads⟩ := hI.1.step stray ha hstep
    refine ⟨hinv, fun p hp => ?_⟩
    exact (mem_append.1 hp).elim (hI.2 p) (hreads p)
  refine ⟨hinv.sorted, ?_, hreads⟩
  rw [← Sched.StableSort.best hinv.sorted]
  unfold State.zHandleObjPollEvents
  split <;> simp [*]

theorem poll_events_ordered_three : ∃ es s,
    Reaches (polled (ω := Unit) (fun _ => 0) (fun t : Fin 3 => if t = 2 then -1 else 4)
      fun _ : Fin 3 => 0) State.Comparable es s ∧
    (s.pollEvents, s.arrived) = ([2, 1, 0], [1, 0, 2]) ∧
    s.zHandleObjPollEvents.2 = s.arrived.argmin s.rank :=
  Reaches.of_exec_and
    [.submit 0 () 0, .handle, .poll 1 1, .poll 0 0, .poll 2 2] (by decide +kernel)
    fun es s h => (poll_events_ordered h).2.1

/-- The memory around the work item of a thread of priority 4 looks like a thread of priority 0: a
thread of priority 1 is put behind it. -/
theorem poll_events_work_item : ∃ es s,
    Reaches (polled (ω := Unit) (fun _ => 0) (fun t : Fin 2 => if t = 0 then 4 else 1)
      fun _ : Fin 2 => 0) (fun _ _ => True) es s ∧
    .reads (some (.work ())) ∈ es ∧ s.arrived.map s.rank = [4, 1] ∧
    s.zHandleObjPollEvents.2 = some 0 ∧ s.arrived.argmin s.rank = some 1 :=
  Reaches.of_exec _ _ [.submit 0 () 0, .poll 1 1] _ (by decide +kernel)

end ZephyrRtos.Poll
