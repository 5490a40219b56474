import ZephyrRtos.Mutex.Model

namespace ZephyrRtos.Mutex

open Function Lib Sched

variable {μ τ : Type} {cfg : Config} {s s' : State μ τ} {t u o : τ} {m : μ}

def Section.releases : Section μ τ → Option μ
  | .unlockScan m | .unlockAdjust m _ | .handOff m => some m
  | _ => none

namespace State

variable (s) in
def Releasing (t : τ) (m : μ) : Prop := ∃ place, s.mutexLock = some (t, place) ∧ place.releases = some m

variable (s) in
/-- What the holder of `mutex_lock` relies on. -/
def SectionOk (t : τ) : Section μ τ → Prop
  | .detect k | .boost k | .follow k =>
    s.owner k.mutex ≠ none ∧ s.mutexPendedOn t = some k.mutex ∧
      s.owner k.chainMutex = some k.chainOwner
  | .pend m _ => s.owner m ≠ none ∧ s.mutexPendedOn t = some m
  | .recalcScan m | .recalcAdjust m _ => s.owner m ≠ none
  | .unlockScan m | .unlockAdjust m _ | .handOff m => s.owner m = some t ∧ s.lockCount m = 1

structure Inv (s : State μ τ) : Prop where
  sched : s.sched.InOrder
  free : ∀ m, s.lockCount m = 0 ↔ s.owner m = none
  nodup : ∀ t, (s.heldMutexes t).Nodup
  held : ∀ t m, m ∈ s.heldMutexes t ↔ s.owner m = some t ∧ ¬s.Releasing t m
  waited : ∀ t m, s.sched.pendedOn t = some m →
    s.owner m ≠ none ∧ s.pc t = .waiting m ∧ s.mutexPendedOn t = some m
  granted : ∀ t m, s.pc t = .waiting m → s.sched.swapRetval t = 0 →
    s.sched.pendedOn t = none ∧ s.owner m = some t
  last : ∀ t m, s.pc t = .lastUnlock m → s.owner m = some t ∧ s.lockCount m = 1
  locked : ∀ t place, s.mutexLock = some (t, place) → s.pc t = .inside ∧ s.SectionOk t place

theorem sectionOk_congr (h : s.SectionOk t place) (ho : s'.owner = s.owner)
    (hc : s'.lockCount = s.lockCount) (hp : s'.mutexPendedOn t = s.mutexPendedOn t) :
    s'.SectionOk t place := by
  cases place <;> simpa only [SectionOk, ho, hc, hp] using h

namespace Inv

theorem init (prio : τ → ℤ) : (init prio : State μ τ).Inv where
  sched := .init prio
  free := by simp [State.init]
  nodup := by simp [State.init]
  held := by simp [State.init]
  waited := by simp [State.init, WaitQs.init]
  granted := by simp [State.init]
  last := by simp [State.init]
  locked := by simp [State.init]

theorem not_pending {pc : Pc μ} (h : s.Inv) (hpc : s.pc t = pc) (hw : ∀ m, pc ≠ .waiting m) :
    s.sched.pendedOn t = none := by
  cases hp : s.sched.pendedOn t with
  | none => rfl
  | some m => exact absurd (hpc.symm.trans (h.waited t m hp).2.1) (hw m)

theorem not_releasing (hfree : s.mutexLock = none) : ¬s.Releasing t m := by
  rintro ⟨place, hl, -⟩
  simp [hfree] at hl

theorem releasing_iff (hl : s.mutexLock = some (t, place)) :
    s.Releasing u m ↔ t = u ∧ place.releases = some m := by
  simp only [Releasing, hl, Option.some.injEq, Prod.mk.injEq]
  constructor
  · rintro ⟨_, ⟨rfl, rfl⟩, h⟩
    exact ⟨rfl, h⟩
  · rintro ⟨rfl, h⟩
    exact ⟨place, ⟨rfl, rfl⟩, h⟩

section

variable (h : s.Inv) (hl : s.mutexLock = some (t, .handOff m))
include h hl

theorem notMem_of_handOff : m ∉ s.heldMutexes u := by
  obtain ⟨-, ho, -⟩ := h.locked t _ hl
  rw [h.held, releasing_iff hl, ho]
  simp [Section.releases]

theorem held_of_ne (hne : m' ≠ m) : m' ∈ s.heldMutexes u ↔ s.owner m' = some u := by
  rw [h.held, releasing_iff hl]
  simp [Section.releases, hne.symm]

end

theorem stay (h : s.Inv) (hl : s.mutexLock = some (t, place)) (hok : s.SectionOk t place')
    (hrel : place'.releases = place.releases) :
    (s.stay t place').Inv := by
  refine ⟨h.sched, h.free, h.nodup, fun u m => ?_, h.waited, h.granted, h.last, ?_⟩
  · rw [releasing_iff rfl, hrel, ← releasing_iff hl]
    exact h.held u m
  · rintro u place₁ heq
    cases heq
    exact ⟨(h.locked t place hl).1, hok⟩

variable [DecidableEq τ]

theorem setMutexPendedOn (h : s.Inv) (hpc : s.pc t ≠ .inside) (hp : s.sched.pendedOn t = none) :
    (s.setMutexPendedOn t x).Inv := by
  refine ⟨h.sched, h.free, h.nodup, h.held, fun u m hu => ?_, h.granted, h.last,
    fun u place hl => ?_⟩
  · have hne : u ≠ t := by
      rintro rfl
      simp [State.setMutexPendedOn, hp] at hu
    simpa [State.setMutexPendedOn, hne] using h.waited u m hu
  · obtain ⟨hin, hok⟩ := h.locked u place hl
    have hne : u ≠ t := by
      rintro rfl
      exact hpc hin
    exact ⟨hin, sectionOk_congr hok rfl rfl (by simp [State.setMutexPendedOn, hne])⟩

theorem place {l : Option (τ × Section μ τ)} {pc : Pc μ} {f : τ → List μ} (h : s.Inv)
    (hp : s.sched.pendedOn t = none) (hw : ∀ m, pc ≠ .waiting m)
    (hlast : ∀ m, pc = .lastUnlock m → s.owner m = some t ∧ s.lockCount m = 1)
    (hnodup : ∀ u, (f u).Nodup)
    (hheld : ∀ u m, m ∈ f u ↔ s.owner m = some u ∧
      ¬∃ place, l = some (u, place) ∧ place.releases = some m)
    (hl : ∀ u place, l = some (u, place) → update s.pc t pc u = .inside ∧ s.SectionOk u place) :
    { s with mutexLock := l, heldMutexes := f, pc := update s.pc t pc }.Inv := by
  refine ⟨h.sched, h.free, hnodup, hheld, fun u m hu => ?_, fun u m hu => ?_, fun u m hu => ?_, hl⟩
  · obtain rfl | hne := eq_or_ne u t
    · simp [hp] at hu
    · simpa [hne] using h.waited u m hu
  · obtain rfl | hne := eq_or_ne u t
    · exact absurd (by simpa using hu) (hw m)
    · exact h.granted u m (by simpa [hne] using hu)
  · obtain rfl | hne := eq_or_ne u t
    · exact hlast m (by simpa using hu)
    · exact h.last u m (by simpa [hne] using hu)

theorem goto {pc : Pc μ} (h : s.Inv) (hpc : s.pc t ≠ .inside) (hp : s.sched.pendedOn t = none)
    (hw : ∀ m, pc ≠ .waiting m)
    (hlast : ∀ m, pc = .lastUnlock m → s.owner m = some t ∧ s.lockCount m = 1) :
    (s.goto t pc).Inv := by
  refine h.place hp hw hlast h.nodup h.held fun u place hl => ?_
  obtain ⟨hin, hok⟩ := h.locked u place hl
  have hne : u ≠ t := by
    rintro rfl
    exact hpc hin
  exact ⟨by rwa [update_of_ne hne], hok⟩

theorem enter {place : Section μ τ} (h : s.Inv) (hfree : s.mutexLock = none)
    (hp : s.sched.pendedOn t = none) (hok : s.SectionOk t place) (hrel : place.releases = none) :
    (s.enter t place).Inv := by
  refine h.place hp nofun nofun h.nodup (fun u m => ?_) ?_
  · simpa [Releasing, hfree, hrel] using h.held u m
  · rintro u place₁ heq
    cases heq
    exact ⟨update_self .., hok⟩

theorem leave {place : Section μ τ} (h : s.Inv) (hl : s.mutexLock = some (t, place))
    (hrel : place.releases = none) : (s.leave t .outside).Inv := by
  have hp := h.not_pending (h.locked t place hl).1 nofun
  refine h.place hp nofun nofun h.nodup (fun u m => ?_) (by simp)
  have hheld := h.held u m
  rw [releasing_iff hl, hrel] at hheld
  simpa using hheld

theorem wake (h : s.Inv) {sched : WaitQs μ τ} (hs : sched.InOrder)
    (hp : sched.pendedOn = update s.sched.pendedOn t none)
    (hr : sched.swapRetval = s.sched.swapRetval) : { s with sched }.Inv := by
  refine ⟨hs, h.free, h.nodup, h.held, fun u m hu => ?_, fun u m hpc hu => ?_, h.last, h.locked⟩
  · obtain rfl | hne := eq_or_ne u t
    · simp [hp] at hu
    · exact h.waited u m (by simpa [hp, hne] using hu)
  · obtain ⟨hpend, ho⟩ := h.granted u m hpc (by simpa [hr] using hu)
    refine ⟨?_, ho⟩
    obtain rfl | hne := eq_or_ne u t
    · simp [hp]
    · simpa [hp, hne] using hpend

theorem mem_hold : m' ∈ (s.hold t m).heldMutexes u ↔ m' ∈ s.heldMutexes u ∨ u = t ∧ m' = m := by
  simp only [State.hold]
  obtain rfl | hne := eq_or_ne u t
  · simp
  · simp [hne]

theorem nodup_hold (h : ∀ u, (s.heldMutexes u).Nodup) (hm : m ∉ s.heldMutexes t) :
    ((s.hold t m).heldMutexes u).Nodup := by
  simp only [State.hold]
  obtain rfl | hne := eq_or_ne u t
  · rw [update_self, ← List.concat_eq_append]
    exact (h u).concat hm
  · rw [update_of_ne hne]
    exact h u

variable [DecidableEq μ]

section

variable (h : s.Inv)
include h

theorem adjustPrio : (s.adjustPrio t p).Inv := by
  rw [State.adjustPrio]
  split
  · refine ⟨h.sched.zThreadPrioSet, h.free, h.nodup, h.held, ?_, ?_, h.last, h.locked⟩
    · simpa using h.waited
    · simpa using h.granted
  · exact h

theorem pend (hl : s.mutexLock = some (t, .pend m w)) : (s.pend t m w).Inv := by
  obtain ⟨hin, ho, hon⟩ := h.locked t _ hl
  have hp := h.not_pending hin nofun
  refine ⟨h.sched.pendLocked hp, h.free, h.nodup, fun u m' => ?_, fun u m' hu => ?_,
    fun u m' hpc hu => ?_, fun u m' hu => ?_, by simp [State.pend, State.leave]⟩
  · have hheld := h.held u m'
    rw [releasing_iff hl] at hheld
    simpa [State.pend, State.leave, Releasing, Section.releases] using hheld
  all_goals simp only [State.pend, State.leave, WaitQs.pendLocked] at *
  · obtain rfl | hne := eq_or_ne u t
    · obtain rfl : m = m' := by simpa using hu
      exact ⟨ho, update_self .., hon⟩
    · rw [update_of_ne hne] at hu ⊢
      exact h.waited u m' hu
  · obtain rfl | hne := eq_or_ne u t
    · simp [eagain] at hu
    · rw [update_of_ne hne] at hpc hu ⊢
      exact h.granted u m' hpc hu
  · obtain rfl | hne := eq_or_ne u t
    · simp at hu
    · rw [update_of_ne hne] at hu
      exact h.last u m' hu

theorem acquire (hfree : s.mutexLock = none) (hm : s.owner m = none) : (s.take t m).Inv := by
  have hcount := (h.free m).2 hm
  have hnot : m ∉ s.heldMutexes t := by simp [h.held, hm]
  have hwait : ∀ u, s.sched.pendedOn u ≠ some m := fun u hu => (h.waited u m hu).1 hm
  rw [State.take]
  simp only [hcount, Nat.zero_add, Nat.one_mod, if_true, Nat.reducePow]
  refine ⟨h.sched, fun m' => ?_, fun u => nodup_hold h.nodup hnot, fun u m' => ?_,
    fun u m' hu => ?_, fun u m' hu hr => ?_, fun u m' hu => ?_, by simp [State.hold, hfree]⟩
  · simp only [State.hold]
    obtain rfl | hne := eq_or_ne m' m
    · simp
    · simpa [hne] using h.free m'
  · rw [mem_hold, h.held, Releasing, Releasing]
    simp only [State.hold, hfree]
    obtain rfl | hne := eq_or_ne m' m
    · simp [hm, eq_comm]
    · simp [hne]
  · simp only [State.hold] at hu ⊢
    have hne : m' ≠ m := by
      rintro rfl
      exact hwait u hu
    rw [update_of_ne hne]
    exact h.waited u m' hu
  · simp only [State.hold] at hu hr ⊢
    obtain ⟨hp, ho⟩ := h.granted u m' hu hr
    rw [update_of_ne (by rintro rfl; simp [hm] at ho)]
    exact ⟨hp, ho⟩
  simp only [State.hold] at hu ⊢
  obtain ⟨ho, hc⟩ := h.last u m' hu
  have hne : m' ≠ m := by
    rintro rfl
    simp [hm] at ho
  rw [update_of_ne hne, update_of_ne hne]
  exact ⟨ho, hc⟩

theorem relock (hpc : s.pc t = .outside) (hfree : s.mutexLock = none) (hm : s.owner m = some t)
    (hmax : s.lockCount m + 1 < 2 ^ 32) : (s.take t m).Inv := by
  have hcount : s.lockCount m ≠ 0 := by simp [h.free, hm]
  rw [State.take]
  simp only [Nat.mod_eq_of_lt hmax]
  rw [if_neg (by omega), ← hm, update_eq_self]
  refine ⟨h.sched, fun m' => ?_, h.nodup, h.held, h.waited, h.granted, fun u m' hu => ?_,
    by simp [hfree]⟩
  · simp only
    obtain rfl | hne := eq_or_ne m' m
    · simp [hm]
    · rw [update_of_ne hne]
      exact h.free m'
  obtain ⟨ho, hc⟩ := h.last u m' hu
  have hne : m' ≠ m := by
    rintro rfl
    rw [hm] at ho
    cases ho
    simp [hpc] at hu
  simp only [update_of_ne hne]
  exact ⟨ho, hc⟩

theorem recursive (hpc : s.pc t = .checkOwner m) (hm : s.owner m = some t)
    (hcount : 1 < s.lockCount m) :
    { s with lockCount := update s.lockCount m (s.lockCount m - 1) }.Inv := by
  refine ⟨h.sched, fun m' => ?_, h.nodup, h.held, h.waited, h.granted, fun u m' hu => ?_,
    fun u place hl => ?_⟩
  · simp only
    obtain rfl | hne := eq_or_ne m' m
    · simp [hm]
      omega
    · rw [update_of_ne hne]
      exact h.free m'
  · obtain ⟨ho, hc⟩ := h.last u m' hu
    have hne : m' ≠ m := by
      rintro rfl
      omega
    simp only [update_of_ne hne]
    exact ⟨ho, hc⟩
  obtain ⟨hin, hok⟩ := h.locked u place hl
  refine ⟨hin, ?_⟩
  cases place
  case unlockScan | unlockAdjust | handOff =>
    obtain ⟨ho, hc⟩ := hok
    refine ⟨ho, ?_⟩
    simp only
    rw [update_of_ne]
    · exact hc
    · rintro rfl
      omega
  all_goals exact hok

theorem lastUnlock (hpc : s.pc t = .lastUnlock m) (hfree : s.mutexLock = none) :
    (s.lastUnlock t m).Inv := by
  obtain ⟨ho, hc⟩ := h.last t m hpc
  have hp := h.not_pending hpc nofun
  have hrel : ∀ place, place = (if s.sched.prio t ≠ s.origPrio t then .unlockScan m else .handOff m :
      Section μ τ) → place.releases = some m ∧ s.SectionOk t place := by
    rintro place rfl
    split
    · exact ⟨rfl, ho, hc⟩
    · exact ⟨rfl, ho, hc⟩
  refine h.place hp nofun nofun (fun u => ?_) (fun u m' => ?_) ?_
  · obtain rfl | hne := eq_or_ne u t
    · simpa using (h.nodup u).erase m
    · simpa [hne] using h.nodup u
  · have hheld := h.held u m'
    simp only [not_releasing hfree] at hheld
    obtain rfl | hne := eq_or_ne u t
    · simp only [update_self, Option.some.injEq, Prod.mk.injEq, true_and, exists_eq_left', (hrel _ rfl).1, (h.nodup u).mem_erase_iff]
      tauto
    · simp [hne, hheld, hne.symm]
  · rintro u place heq
    cases heq
    exact ⟨update_self .., (hrel _ rfl).2⟩

theorem free_of_handOff (hl : s.mutexLock = some (t, .handOff m)) (hq : s.sched.waitq m = []) :
    ((s.free m).leave t .outside).Inv := by
  obtain ⟨hin, ho, -⟩ := h.locked t _ hl
  refine ⟨h.sched, fun m' => ?_, h.nodup, fun u m' => ?_, fun u m' hu => ?_, fun u m' hu hr => ?_,
    fun u m' hu => ?_, by simp [State.leave]⟩
  all_goals simp only [State.leave, State.free, Releasing] at *
  · obtain rfl | hne := eq_or_ne m' m
    · simp
    · simpa [hne] using h.free m'
  · obtain rfl | hne := eq_or_ne m' m
    · simpa using h.notMem_of_handOff hl
    · simpa [hne] using h.held_of_ne hl hne
  · have hne : m' ≠ m := by
      rintro rfl
      simpa [hq] using (h.sched.mem_iff u m').2 hu
    obtain ⟨ho', hpc, hon⟩ := h.waited u m' hu
    rw [update_of_ne hne, update_of_ne (by rintro rfl; simp [hin] at hpc)]
    exact ⟨ho', hpc, hon⟩
  · obtain rfl | hut := eq_or_ne u t
    · simp at hu
    rw [update_of_ne hut] at hu
    obtain ⟨hp, hou⟩ := h.granted u m' hu hr
    rw [update_of_ne (by rintro rfl; simp [ho, hut.symm] at hou)]
    exact ⟨hp, hou⟩
  obtain rfl | hut := eq_or_ne u t
  · simp at hu
  rw [update_of_ne hut] at hu
  obtain ⟨hou, hcu⟩ := h.last u m' hu
  have hne : m' ≠ m := by
    rintro rfl
    simp [ho, hut.symm] at hou
  rw [update_of_ne hne, update_of_ne hne]
  exact ⟨hou, hcu⟩

theorem grant (hl : s.mutexLock = some (t, .handOff m)) (hq : s.sched.waitq m = w :: l) :
    ((s.grant ((s.sched.unpendThreadNoTimeout w).tryAbortThreadTimeout w) w m).leave t
      .outside).Inv := by
  obtain ⟨hin, ho, hc⟩ := h.locked t _ hl
  obtain ⟨-, hpcw, -⟩ := h.waited w m (h.sched.head hq).1
  have hsched : ((s.sched.unpendThreadNoTimeout w).tryAbortThreadTimeout w).InOrder :=
    ⟨h.sched.leave.mem_iff, h.sched.leave.ordered, h.sched.leave.recent⟩
  refine ⟨⟨hsched.mem_iff, hsched.ordered, hsched.recent⟩, fun m' => ?_,
    fun u => nodup_hold h.nodup (h.notMem_of_handOff hl), fun u m' => ?_, fun u m' hu => ?_,
    fun u m' hu hr => ?_, fun u m' hu => ?_, by simp [State.leave]⟩
  · simp only [State.leave, State.grant, State.hold, State.setMutexPendedOn]
    obtain rfl | hne := eq_or_ne m' m
    · simp [hc]
    · simpa [hne] using h.free m'
  · refine mem_hold.trans ?_
    simp only [State.leave, State.grant, State.hold, State.setMutexPendedOn, Releasing]
    obtain rfl | hne := eq_or_ne m' m
    · simp [h.notMem_of_handOff hl, eq_comm]
    · simpa [hne] using h.held_of_ne hl hne
  all_goals simp only [State.leave, State.grant, State.hold, State.setMutexPendedOn,
    WaitQs.threadReturnValueSet, WaitQs.tryAbortThreadTimeout, WaitQs.unpend_pendedOn,
    WaitQs.unpend_swapRetval] at *
  · have huw : u ≠ w := by
      rintro rfl
      simp at hu
    rw [update_of_ne huw] at hu ⊢
    obtain ⟨hou, hpc, hon⟩ := h.waited u m' hu
    have hut : u ≠ t := by
      rintro rfl
      simp [hin] at hpc
    rw [update_of_ne hut]
    refine ⟨?_, hpc, hon⟩
    obtain rfl | hne := eq_or_ne m' m
    · simp
    · rwa [update_of_ne hne]
  · obtain rfl | hut := eq_or_ne u t
    · simp at hu
    rw [update_of_ne hut] at hu
    obtain rfl | huw := eq_or_ne u w
    · rw [hpcw] at hu
      cases hu
      simp
    · rw [update_of_ne huw] at hr ⊢
      obtain ⟨hp, hou⟩ := h.granted u m' hu hr
      rw [update_of_ne (by rintro rfl; simp [ho, hut.symm] at hou)]
      exact ⟨hp, hou⟩
  · obtain rfl | hut := eq_or_ne u t
    · simp at hu
    rw [update_of_ne hut] at hu
    obtain ⟨hou, hcu⟩ := h.last u m' hu
    rw [update_of_ne (by rintro rfl; simp [ho, hut.symm] at hou)]
    exact ⟨hou, hcu⟩

end

end Inv

/-- Nobody locks a mutex 2^32 times over. -/
def CountFits (s : State μ τ) : Action μ τ → Prop
  | .lock t m _ => s.owner m = some t → s.lockCount m + 1 < 2 ^ 32
  | _ => True

variable [DecidableEq μ] [DecidableEq τ]

theorem Inv.move {a : Action μ τ} {es : List (Event μ τ)} (h : s.Inv) (hok : s.CountFits a)
    (hm : Move cfg s a s' es) : s'.Inv := by
  cases hm with
  | @take t m _ hpc hfree hor =>
    cases ho : s.owner m with
    | none => exact h.acquire hfree ho
    | some o =>
      obtain hz | ho' := hor
      · simp [(h.free m).1 hz] at ho
      · exact h.relock hpc hfree ho' (hok ho')
  | refuse => exact h
  | block hpc hfree hcount ho hne =>
    have hp := h.not_pending hpc (by simp)
    exact (h.setMutexPendedOn (by simp [hpc]) hp).enter hfree hp
      ⟨by simp [State.setMutexPendedOn, ho], by simp [State.setMutexPendedOn], ho⟩ rfl
  | deadlock hl =>
    obtain ⟨-, ho, hon, -⟩ := h.locked _ _ hl
    exact h.stay hl ⟨ho, hon⟩ rfl
  | detect hl => exact h.stay hl (h.locked _ _ hl).2 rfl
  | boost hl ho =>
    exact h.adjustPrio.stay ((adjustPrio_mutexLock ..).trans hl)
      (sectionOk_congr (h.locked _ _ hl).2 (by simp) (by simp) (by simp)) rfl
  | noBoost hl => exact h.stay hl (h.locked _ _ hl).2 rfl
  | follow hl hk =>
    obtain ⟨-, ho, hon, -⟩ := h.locked _ _ hl
    obtain ⟨m, o, -, -, -, -, hm, rfl⟩ := nextWalk_eq_some.1 hk
    exact h.stay hl ⟨ho, hon, hm⟩ rfl
  | stop hl =>
    obtain ⟨-, ho, hon, -⟩ := h.locked _ _ hl
    exact h.stay hl ⟨ho, hon⟩ rfl
  | pend hl => exact h.pend hl
  | recalcScan hl => exact h.stay hl (h.locked _ _ hl).2 rfl
  | recalcAdjust hl => exact h.adjustPrio.leave ((adjustPrio_mutexLock ..).trans hl) rfl
  | unlockScan hl => exact h.stay hl (h.locked _ _ hl).2 rfl
  | unlockAdjust hl =>
    exact h.adjustPrio.stay ((adjustPrio_mutexLock ..).trans hl)
      (sectionOk_congr (h.locked _ _ hl).2 (by simp) (by simp) (by simp)) rfl
  | free hl hq => exact h.free_of_handOff hl hq
  | grant hl hq => exact h.grant hl hq
  | resume hpc hp =>
    exact (h.setMutexPendedOn (by simp [hpc]) hp).goto (by simp [State.setMutexPendedOn, hpc]) hp
      (by simp) (by simp)
  | giveUp hpc hp => exact h.goto (by simp [hpc]) hp (by simp) (by simp)
  | unowned hpc =>
    have hp := h.not_pending hpc (by simp)
    exact (h.setMutexPendedOn (by simp [hpc]) hp).goto (by simp [State.setMutexPendedOn, hpc]) hp
      (by simp) (by simp)
  | recalc hpc hfree ho =>
    have hp := h.not_pending hpc (by simp)
    exact (h.setMutexPendedOn (by simp [hpc]) hp).enter hfree hp
      (by simp [SectionOk, State.setMutexPendedOn, ho]) rfl
  | invalid => exact h
  | unlock hpc => exact h.goto (by simp [hpc]) (h.not_pending hpc (by simp)) (by simp) (by simp)
  | notOwner hpc => exact h.goto (by simp [hpc]) (h.not_pending hpc (by simp)) (by simp) (by simp)
  | recursive hpc ho hcount =>
    exact (h.recursive hpc ho hcount).goto (by simp [hpc]) (h.not_pending hpc (by simp))
      (by simp) (by simp)
  | @last t m hpc ho hcount =>
    refine h.goto (by simp [hpc]) (h.not_pending hpc (by simp)) (by simp) fun m' hm => ?_
    cases hm
    have := h.free m
    simp only [ho, reduceCtorEq, iff_false] at this
    exact ⟨ho, by omega⟩
  | release hpc hfree => exact h.lastUnlock hpc hfree
  | expire hs =>
    obtain ⟨-, hs⟩ := Option.ite_none_right_eq_some.1 hs
    cases hs
    exact ⟨⟨h.sched.mem_iff, h.sched.ordered, h.sched.recent⟩, h.free, h.nodup, h.held, h.waited,
      h.granted, h.last, h.locked⟩
  | @timeout t _ hs =>
    have hsched := h.sched.zThreadTimeout hs
    obtain ⟨-, rfl⟩ := by simpa [WaitQs.zThreadTimeout] using hs
    exact h.wake (t := t) hsched (by simp [WaitQs.tryAbortThreadTimeout])
      (by simp [WaitQs.tryAbortThreadTimeout])

end State

end ZephyrRtos.Mutex
