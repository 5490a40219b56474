import ZephyrRtos.Queue.Model

namespace ZephyrRtos.Queue

open List hiding after

open Lib Sched

variable {ι τ : Type} [DecidableEq ι] [DecidableEq τ]

namespace Event

def apply (list : List ι) : Event ι τ → Option (List ι)
  | .queued i data => if i ≤ list.length then some (list.insertIdx i data) else none
  | .got _ data => if list.head? = some data then some list.tail else none
  | .removed data => if data ∈ list then some (list.erase data) else none
  | _ => some list

def handedTo (t : τ) : Event ι τ → Option ι
  | .handed u data => if u = t then some data else none
  | _ => none

def returnedTo (t : τ) : Event ι τ → Option ι
  | .returned u data => if u = t then data else none
  | _ => none

def puts : Event ι τ → Option ι
  | .queued _ data => some data
  | _ => none

def takes : Event ι τ → Option ι
  | .got _ data => some data
  | .removed data => some data
  | _ => none

def allocates : Event ι τ → Option ℕ
  | .allocated a => some a
  | _ => none

def frees : Event ι τ → Option ℕ
  | .freed a => some a
  | _ => none

section

omit [DecidableEq τ]

theorem apply_perm {ev : Event ι τ} (h : apply list ev = some list') :
    (list ++ [ev].filterMap puts).Perm ([ev].filterMap takes ++ list') := by
  cases ev with
  | queued i data =>
    obtain ⟨hi, rfl⟩ := by simpa [apply] using h
    exact (perm_append_singleton _ _).trans (perm_insertIdx _ _ hi).symm
  | got t data =>
    obtain ⟨hhead, rfl⟩ := by simpa [apply] using h
    obtain ⟨-, rfl⟩ := head?_eq_some_iff.1 hhead
    simp [puts, takes, filterMap_cons]
  | removed data =>
    obtain ⟨hmem, rfl⟩ := by simpa [apply] using h
    simpa [puts, takes, filterMap_cons] using perm_cons_erase hmem
  | _ => simp_all [apply, puts, takes, filterMap_cons]

theorem foldlM_perm {es : List (Event ι τ)} (h : es.foldlM apply list = some list') :
    (list ++ es.filterMap puts).Perm (es.filterMap takes ++ list') := by
  induction es generalizing list with
  | nil => simp_all
  | cons ev es ih =>
    obtain ⟨l, hl, h⟩ := by simpa [Option.bind_eq_some_iff] using h
    have hone := (apply_perm hl).append_right (es.filterMap puts)
    have hrest := (ih h).append_left ([ev].filterMap takes)
    rw [← append_assoc] at hrest
    have hall := hone.trans hrest
    rwa [append_assoc, ← append_assoc ([ev].filterMap takes), ← filterMap_append,
      ← filterMap_append] at hall

end

end Event

namespace State

variable {s s' : State ι τ} {es : List (Event ι τ)} {t : τ} {data : ι}

def items (s : State ι τ) : List ι := s.dataQ.map Node.peek

def outstanding (s : State ι τ) (t : τ) : List ι :=
  if s.waiting t ∧ s.sched.swapRetval t = 0 then (s.swapData t).toList else []

structure Inv (es : List (Event ι τ)) (s : State ι τ) : Prop where
  list : es.foldlM Event.apply [] = some s.items
  order : s.sched.InOrder
  pends : ∀ t, s.sched.pendedOn t = some () → s.waiting t = true ∧ s.sched.swapRetval t = -eagain
  empty : s.sched.waitq () ≠ [] → s.dataQ = []
  calls : ∀ t, es.filterMap (Event.handedTo t) = es.filterMap (Event.returnedTo t) ++ s.outstanding t
  allocs : es.filterMap Event.allocates = List.range s.nextNode
  freed : (List.range s.nextNode).Perm (es.filterMap Event.frees ++ s.dataQ.filterMap Node.frees)

section

variable (h : Inv es s)
include h

theorem Inv.wake (hq : s.sched.waitq () = t :: l) (data : Option ι) :
    Inv (es ++ (data.map (.handed t)).toList) (s.schedWake t data) := by
  have hp := (h.order.head hq).1
  obtain ⟨hwait, hret⟩ := h.pends t hp
  have hnil : s.dataQ = [] := h.empty (by simp [hq])
  refine ⟨?_, h.order.wake 0, fun u hu => ?_, fun _ => hnil, fun u => ?_, ?_, ?_⟩
  · rw [foldlM_append, h.list]
    cases data <;> rfl
  · obtain rfl | hne := eq_or_ne u t
    · simp [schedWake] at hu
    · simpa [schedWake, hne] using h.pends u (by simpa [schedWake, hne] using hu)
  · rw [filterMap_append, filterMap_append, h.calls u]
    obtain rfl | hne := eq_or_ne u t
    · cases data <;>
        simp [outstanding, schedWake, hwait, hret, eagain, Event.handedTo, Event.returnedTo]
    · cases data <;>
        simp [outstanding, schedWake, hne, hne.symm, Event.handedTo, Event.returnedTo]
  · rw [filterMap_append, h.allocs]
    cases data <;> simp [Event.allocates, schedWake]
  · rw [filterMap_append]
    cases data <;> simpa [Event.frees, schedWake, filterMap_cons] using h.freed

theorem Inv.relist (hlist : es'.foldlM Event.apply s.items = some (nodes.map Node.peek))
    (hempty : s.sched.waitq () ≠ [] → nodes = [])
    (hquiet : ∀ t, es'.filterMap (Event.handedTo t) = [] ∧ es'.filterMap (Event.returnedTo t) = [])
    (hnext : range n = range s.nextNode ++ es'.filterMap Event.allocates)
    (hfreed : (s.dataQ.filterMap Node.frees ++ es'.filterMap Event.allocates).Perm (es'.filterMap Event.frees ++ nodes.filterMap Node.frees)) :
    Inv (es ++ es') { s with dataQ := nodes, nextNode := n } := by
  refine ⟨?_, h.order, h.pends, hempty, fun t => ?_, ?_, ?_⟩
  · rwa [foldlM_append, h.list]
  · rw [filterMap_append, filterMap_append, (hquiet t).1, (hquiet t).2, append_nil,
      append_nil]
    exact h.calls t
  · rw [filterMap_append, h.allocs]
    exact hnext.symm
  · rw [hnext, filterMap_append, append_assoc]
    exact (h.freed.append_right _).trans (by rw [append_assoc]; exact hfreed.append_left _)

theorem Inv.queueInsert (hi : i ≤ s.dataQ.length) (data : ι) (alloc : Option Bool) :
    Inv (es ++ (s.queueInsert i data alloc).2) (s.queueInsert i data alloc).1 := by
  unfold State.queueInsert
  split
  · next t l hq => exact h.wake hq (some data)
  · next hq =>
    have hlist : ∀ node : Node ι, ((s.dataQ.insertIdx i node).map Node.peek) =
        s.items.insertIdx i node.peek := fun node => map_insertIdx ..
    have hperm : ∀ node, ((node :: s.dataQ).filterMap Node.frees).Perm
        ((s.dataQ.insertIdx i node).filterMap Node.frees) := fun node =>
      ((perm_insertIdx node _ hi).filterMap _).symm
    have hle : i ≤ s.items.length := by simpa [items] using hi
    split
    · rwa [append_nil]
    · refine h.relist ?_ (absurd hq) (fun t => ⟨rfl, rfl⟩) ?_ ?_
      · simp [Event.apply, hle, hlist, Node.peek]
      · exact range_succ
      · exact (perm_append_singleton _ _).trans (hperm (.alloc _ data))
    · refine h.relist ?_ (absurd hq) (fun t => ⟨rfl, rfl⟩) ?_ ?_
      · simp [Event.apply, hle, hlist, Node.peek]
      · exact (append_nil _).symm
      · simpa [Event.allocates, Event.frees, filterMap_cons, Node.frees] using hperm (.item data)

theorem Inv.wakeList (list : List ι) :
    Inv (es ++ (s.wakeList list).2.2) (s.wakeList list).1 ∧
      ((s.wakeList list).2.1 ≠ [] → (s.wakeList list).1.sched.waitq () = []) := by
  induction list generalizing es s with
  | nil => exact ⟨by simpa [State.wakeList] using h, by simp [State.wakeList]⟩
  | cons data list ih =>
    rw [State.wakeList]
    split
    · next hq => exact ⟨by simpa using h, fun _ => hq⟩
    · next t l hq =>
      have hrest := ih (h.wake hq (some data))
      rwa [append_assoc] at hrest

theorem Inv.appendItems (list : List ι) (hq : list ≠ [] → s.sched.waitq () = []) :
    Inv (es ++ (s.appendItems list).2) (s.appendItems list).1 := by
  induction list generalizing es s with
  | nil => simpa [State.appendItems] using h
  | cons data list ih =>
    have hnil := hq nofun
    have hone := h.queueInsert le_rfl data none
    simp only [State.queueInsert, hnil] at hone
    have hrest := ih hone fun _ => hnil
    rwa [append_assoc] at hrest

theorem Inv.leaves (hl : s.dataQ = before ++ node :: after)
    (hev : ev = .removed data ∨ ∃ t, ev = .got t data)
    (happly : Event.apply s.items ev = some ((before ++ after).map Node.peek)) :
    Inv (es ++ ev :: (node.frees.map .freed).toList) { s with dataQ := before ++ after } := by
  refine h.relist ?_ (fun hq => ?_) (fun t => ?_) ?_ ?_
  · rw [foldlM_cons, happly]
    cases node <;> rfl
  · simpa [hl] using h.empty hq
  · obtain rfl | ⟨-, rfl⟩ := hev <;> cases node <;> exact ⟨rfl, rfl⟩
  · obtain rfl | ⟨-, rfl⟩ := hev <;> cases node <;> exact (append_nil _).symm
  · rw [hl]
    obtain rfl | ⟨-, rfl⟩ := hev <;> cases node <;>
      simp [Node.frees, Event.allocates, Event.frees, filterMap_cons]

theorem Inv.kQueueRemove (data : ι) :
    Inv (es ++ (s.kQueueRemove data).2) (s.kQueueRemove data).1 := by
  unfold State.kQueueRemove
  split
  · rwa [append_nil]
  · next node hfind =>
    obtain ⟨hpeek, before, after, hl, hbefore⟩ := find?_eq_some_iff_append.1 hfind
    have hpeek : node.peek = data := by simpa using hpeek
    have herase : s.dataQ.eraseP (·.peek = data) = before ++ after := by
      rw [hl, eraseP_append_right _ (by simpa using hbefore),
        eraseP_cons_of_pos (by simpa using hpeek)]
    rw [herase]
    refine h.leaves hl (.inl rfl) ?_
    have hnot : data ∉ before.map Node.peek := by
      simpa using hbefore
    simp [Event.apply, items, hl, hpeek, erase_append_right _ hnot]

theorem Inv.kQueueGet (hwait : s.waiting t = false) (timeout : KTimeout) :
    Inv (es ++ (s.kQueueGet t timeout).2) (s.kQueueGet t timeout).1 := by
  unfold State.kQueueGet
  split
  · next node nodes hl =>
    refine h.leaves (show s.dataQ = [] ++ node :: nodes from hl) (.inr ⟨t, rfl⟩) ?_
    simp [Event.apply, items, hl]
  · next hnil =>
    have hp : s.sched.pendedOn t = none := by
      by_contra hne
      obtain ⟨⟨⟩, hp⟩ := Option.ne_none_iff_exists'.1 hne
      simp [(h.pends t hp).1] at hwait
    split
    · refine ⟨?_, h.order, h.pends, h.empty, fun u => ?_, ?_, ?_⟩
      · simp [h.list, Event.apply]
      · simp [h.calls u, Event.handedTo, Event.returnedTo]
      · simp [h.allocs, Event.allocates]
      · simpa [Event.frees, filterMap_cons] using h.freed
    rw [append_nil]
    refine ⟨h.list, h.order.pendLocked hp, fun u hu => ?_, fun _ => hnil, fun u => ?_, h.allocs,
      h.freed⟩
    · obtain rfl | hne := eq_or_ne u t
      · simp
      · simpa [hne] using h.pends u (by simpa [hne] using hu)
    · rw [h.calls u]
      obtain rfl | hne := eq_or_ne u t
      · simp [outstanding, hwait, eagain]
      · simp [outstanding, hne]

theorem Inv.getReturns (hwait : s.waiting t = true) (hp : s.sched.pendedOn t = none) :
    Inv (es ++ (s.getReturns t).2) (s.getReturns t).1 := by
  refine ⟨?_, h.order, fun u hu => ?_, h.empty, fun u => ?_, ?_, ?_⟩
  · simp [State.getReturns, h.list, Event.apply, items]
  · have hne : u ≠ t := by
      rintro rfl
      simp [State.getReturns, hp] at hu
    simpa [State.getReturns, hne] using h.pends u hu
  · rw [filterMap_append, filterMap_append, h.calls u]
    obtain rfl | hne := eq_or_ne u t
    · by_cases hret : s.sched.swapRetval u = 0 <;> cases hd : s.swapData u <;>
        simp [outstanding, State.getReturns, hwait, hret, hd, Event.handedTo, Event.returnedTo]
    · simp [outstanding, State.getReturns, hne, hne.symm, Event.handedTo, Event.returnedTo]
  · simp [State.getReturns, h.allocs, Event.allocates]
  · simpa [State.getReturns, Event.frees, filterMap_cons] using h.freed

theorem Inv.zThreadTimeout (hs : s.sched.zThreadTimeout t = some w) :
    Inv es { s with sched := w } := by
  obtain ⟨hp, hret⟩ := WaitQs.timeout_fields hs
  have horder := h.order.zThreadTimeout hs
  have hpended : ∀ u, w.pendedOn u = some () → s.sched.pendedOn u = some () := fun u hu => by
    rw [hp] at hu
    obtain rfl | hne := eq_or_ne u t
    · simp at hu
    · simpa [hne] using hu
  refine ⟨h.list, horder, fun u hu => ?_, fun hq => ?_, fun u => ?_, h.allocs, h.freed⟩
  · simpa [hret] using h.pends u (hpended u hu)
  · obtain ⟨u, hu⟩ := exists_mem_of_ne_nil _ hq
    have hmem := (h.order.mem_iff u ()).2 (hpended u ((horder.mem_iff u ()).1 hu))
    exact h.empty (ne_nil_of_mem hmem)
  · simpa [outstanding, hret] using h.calls u

theorem Inv.expire (hs : s.sched.expire t = some w) : Inv es { s with sched := w } := by
  have horder := h.order.expire hs
  obtain ⟨-, rfl⟩ := by simpa [WaitQs.expire] using hs
  exact ⟨h.list, horder, h.pends, h.empty, h.calls, h.allocs, h.freed⟩

theorem Inv.step (hs : s.step a = some (s', es')) : Inv (es ++ es') s' := by
  cases a with
  | append data =>
    obtain ⟨-, rfl, rfl⟩ := by simpa [State.step, Prod.ext_iff] using hs
    exact h.queueInsert le_rfl data none
  | prepend data =>
    obtain ⟨-, rfl, rfl⟩ := by simpa [State.step, Prod.ext_iff] using hs
    exact h.queueInsert (Nat.zero_le _) data none
  | insert prev data =>
    obtain ⟨⟨-, hprev⟩, rfl, rfl⟩ := by simpa [State.step, Prod.ext_iff] using hs
    exact h.queueInsert (idxOf_lt_length_iff.2 hprev) data none
  | allocAppend data memory =>
    obtain ⟨rfl, rfl⟩ := by simpa [State.step, Prod.ext_iff] using hs
    exact h.queueInsert le_rfl data (some memory)
  | allocPrepend data memory =>
    obtain ⟨rfl, rfl⟩ := by simpa [State.step, Prod.ext_iff] using hs
    exact h.queueInsert (Nat.zero_le _) data (some memory)
  | appendList list =>
    obtain ⟨-, rfl, rfl⟩ := by simpa [State.step] using hs
    obtain ⟨hwoken, hq⟩ := h.wakeList list
    have hrest := hwoken.appendItems _ hq
    rwa [append_assoc] at hrest
  | uniqueAppend data =>
    obtain ⟨rfl, rfl⟩ := by simpa [State.step, Prod.ext_iff] using hs
    unfold kQueueUniqueAppend
    split
    · rwa [append_nil]
    · exact h.queueInsert le_rfl data none
  | remove data =>
    obtain ⟨rfl, rfl⟩ := by simpa [State.step, Prod.ext_iff] using hs
    exact h.kQueueRemove data
  | get t timeout =>
    obtain ⟨hwait, rfl, rfl⟩ := by simpa [State.step, Prod.ext_iff] using hs
    exact h.kQueueGet hwait timeout
  | cancelWait =>
    obtain ⟨rfl, rfl⟩ := by simpa using hs
    unfold kQueueCancelWait
    split
    · next hq => exact h.wake hq none
    · rwa [append_nil]
  | advance t =>
    obtain ⟨⟨hwait, hp⟩, rfl, rfl⟩ := by simpa [State.step] using hs
    exact h.getReturns hwait hp
  | expire t =>
    obtain ⟨sched, hsched, rfl, rfl⟩ := by simpa [State.step] using hs
    simpa using h.expire hsched
  | timeout t =>
    obtain ⟨sched, hsched, rfl, rfl⟩ := by simpa [State.step] using hs
    simpa using h.zThreadTimeout hsched

end

end State

variable {s : State ι τ} {es : List (Event ι τ)}

theorem inv_of_reaches {prio : τ → ℤ} (h : Reaches (queue prio) ok es s) : s.Inv es := by
  refine Run.invariant ?_ (fun _ _ _ _ _ hinv _ hs => hinv.step hs) h
  exact ⟨rfl, .init prio, by simp [queue, WaitQs.init], fun _ => rfl, fun _ => rfl, rfl, .refl _⟩

theorem State.mem_items : data ∈ s.items ↔ .item data ∈ s.dataQ ∨ ∃ a, .alloc a data ∈ s.dataQ := by
  simp only [items, mem_map]
  constructor
  · rintro ⟨_ | ⟨a, _⟩, hmem, rfl⟩
    · exact .inl hmem
    · exact .inr ⟨a, hmem⟩
  · rintro (hmem | ⟨a, hmem⟩)
    · exact ⟨_, hmem, rfl⟩
    · exact ⟨_, hmem, rfl⟩

/-- The items leave the list in order, each one once, and one that is handed to a waiting thread
is what its get returns. Threads wait only while the list is empty, and the wrappers in it are
those that are allocated. A unique append tells whether an item is in the queue, but for one that
only a wrapper holds. -/
theorem queue_items_leave_once {prio : τ → ℤ} (h : Reaches (queue prio) ok es s) :
    es.foldlM Event.apply [] = some s.items ∧
    (es.filterMap Event.puts).Perm (es.filterMap Event.takes ++ s.items) ∧
    (∀ t, es.filterMap (Event.handedTo t) = es.filterMap (Event.returnedTo t) ++ s.outstanding t) ∧
    (s.sched.waitq () ≠ [] → s.dataQ = []) ∧
    (es.filterMap Event.allocates).Nodup ∧
    (es.filterMap Event.allocates).Perm
      (es.filterMap Event.frees ++ s.dataQ.filterMap Node.frees) ∧
    ∀ data, s.kQueueUniqueAppend data =
        (if data ∈ s.items then ((s, []), false)
          else (s.queueInsert s.dataQ.length data none, true)) ↔
      .item data ∈ s.dataQ ∨ ∀ a, .alloc a data ∉ s.dataQ := by
  have hinv := inv_of_reaches h
  refine ⟨hinv.list, by simpa using Event.foldlM_perm hinv.list, hinv.calls, hinv.empty, ?_, ?_,
    fun data => ?_⟩
  · rw [hinv.allocs]
    exact nodup_range
  · rw [hinv.allocs]
    exact hinv.freed
  · rw [State.kQueueUniqueAppend]
    by_cases hitem : .item data ∈ s.dataQ
    · simp [hitem, State.mem_items]
    · simp [hitem, State.mem_items]

/-- Thread 0 waits for an item and is handed the first of a list, the second one is queued, and the
item of a wrapper leaves after it. -/
theorem queue_items_leave_once_four : ∃ es s,
    Reaches (queue (ι := Fin 4) fun _ : Fin 2 => 0) (fun _ _ => True) es s ∧
    (es, s.dataQ) = ([.handed 0 0, .queued 0 1, .returned 0 (some 0), .allocated 0, .queued 1 2,
      .got 1 1, .queued 1 3, .got 0 2, .freed 0], [.item 3]) ∧
    (es.filterMap Event.puts).Perm (es.filterMap Event.takes ++ s.items) :=
  Reaches.of_exec_and
    [.get 0 .forever, .appendList [0, 1], .advance 0, .allocAppend 2 true, .get 1 .noWait,
      .uniqueAppend 3, .get 0 .ticks, .uniqueAppend 3]
    (by decide +kernel) fun es s h => (queue_items_leave_once h).2.1

/-- An item that was appended with a wrapper is in the queue, and a unique append of it appends it
once more. -/
theorem queue_unique_append_twice : ∃ es s,
    Reaches (queue (ι := Fin 1) fun _ : Fin 1 => 0) (fun _ _ => True) es s ∧
    s.items = [0] ∧ (s.kQueueUniqueAppend 0).2 = true ∧
    (s.kQueueUniqueAppend 0).1.1.items = [0, 0] :=
  Reaches.of_exec _ _ [.allocAppend 0 true] _ (by decide +kernel)

end ZephyrRtos.Queue
