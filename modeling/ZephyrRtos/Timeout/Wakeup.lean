import ZephyrRtos.Timeout.BucketLaws
import ZephyrRtos.Timeout.DeltaList
import ZephyrRtos.Timeout.MinHeap
import ZephyrRtos.Timeout.Refinement
import ZephyrRtos.Timeout.SkipListLaws

/-! When the timer driver is woken: the deadline a backend reports, and the wait that
`next_timeout` makes of it. -/

namespace ZephyrRtos.Timeout

open Lib

variable {τ : Type} [DecidableEq τ] {Q : Queue τ} {cfg : Config}

theorem nextTimeout_le (h : 0 < next) (ticksElapsed : ℕ) :
    nextTimeout next ticksElapsed = 0 ∨ (ticksElapsed + nextTimeout next ticksElapsed : ℤ) ≤ next := by
  have hmax : sysClockMaxWait < 2 ^ 32 := by decide
  simp only [nextTimeout]
  split
  · exact .inl rfl
  split
  · next hfar =>
    rcases hfar with hfar | hfar
    · simp only [ticksForever] at hfar
      omega
    · omega
  · have hu : (uint32 next : ℤ) = next := uint32_eq h.le
    split <;> omega

/-- The last wait given to the driver, if any, ends by the reported deadline. -/
def Armed (k : Kernel Q) : Prop :=
  ∀ ticks now, k.driver = some (.setTimeout ticks now) → ticks = 0 ∨
    Q.nextExpiry k.queue k.currTick = ticksForever ∨
    (now + ticks : ℤ) ≤ k.currTick + Q.nextExpiry k.queue k.currTick

section

omit [DecidableEq τ]

theorem armed_setTimeout (ticksElapsed : ℕ)
    (h : Q.nextExpiry k.queue k.currTick = ticksForever ∨ 0 < Q.nextExpiry k.queue k.currTick) :
    Armed (setTimeout k ticksElapsed) := by
  rintro - - ⟨⟩
  rcases h with h | h
  · exact .inr (.inl h)
  · refine (nextTimeout_le h ticksElapsed).imp_right fun hle => .inr ?_
    simp only [setTimeout]
    omega

theorem armed_reprogram (ticksElapsed : ℕ)
    (h : Q.nextExpiry k.queue k.currTick = ticksForever ∨ 0 < Q.nextExpiry k.queue k.currTick) :
    Armed (reprogramNext cfg k ticksElapsed) := by
  simp only [reprogramNext]
  split
  · rintro - - ⟨⟩
  · exact armed_setTimeout ticksElapsed h

end

/-- What keeps the driver armed: in the states `J`, an operation that does not ask for
the driver to be reprogrammed does not bring the deadline forward. -/
structure Wakes (Q : Queue τ) (J : Q.State → ℕ → Prop) (adm : Q.State → ℕ → ℤ → Prop) : Prop where
  next : ∀ {s c}, J s c → Q.nextExpiry s c = ticksForever ∨ 0 < Q.nextExpiry s c
  insert : ∀ {s c t d s'}, J s c → Q.isInactive s t = true → adm s c d →
    Q.insert s c t d = some (s', false) →
    Q.nextExpiry s c ≠ ticksForever ∧ Q.nextExpiry s c ≤ Q.nextExpiry s' c
  remove : ∀ {s c t}, J s c → Q.isInactive s t = false → (Q.remove s c t).2 = false →
    Q.nextExpiry (Q.remove s c t).1 c = ticksForever ∨ Q.nextExpiry s c ≠ ticksForever ∧
      Q.nextExpiry s c ≤ Q.nextExpiry (Q.remove s c t).1 c

section Step

variable {B : Backend τ} {J : B.queue.State → ℕ → Prop} {adm : B.queue.State → ℕ → ℤ → Prop}
  {k k' : Kernel B.queue} {a : Action τ} {es : List (Event τ)}

section

omit [DecidableEq τ]

theorem Armed.of_le (h : Armed k) (hd : k'.driver = k.driver) (hc : k'.currTick = k.currTick)
    (hle : B.queue.nextExpiry k'.queue k.currTick = ticksForever ∨
      B.queue.nextExpiry k.queue k.currTick ≠ ticksForever ∧
        B.queue.nextExpiry k.queue k.currTick ≤ B.queue.nextExpiry k'.queue k.currTick) :
    Armed k' := by
  intro ticks now hdrv
  rw [hd] at hdrv
  rw [hc]
  rcases hle with hle | ⟨hne, hle⟩
  · exact .inr (.inl hle)
  · rcases h ticks now hdrv with h0 | h0 | h0
    · exact .inl h0
    · exact absurd h0 hne
    · exact .inr (.inr (by omega))

theorem Armed.markSuperseded (h : Armed k) : Armed (inflightMarkSuperseded k) := h

end

theorem Wakes.step (w : Wakes B.queue J adm) (hcpu : k.phase = .idle ↔ k.announcingCpu = none)
    (hJ : k.phase = .idle → J k.queue k.currTick) (hJ' : k'.phase = .idle → J k'.queue k'.currTick)
    (hloop : (B.loopStep cfg k).phase = .idle → k.lockFree = false →
      B.loopStep cfg k = announceEnd cfg k)
    (hadm : ∀ cpu t ticks sysElapsed, a = .add cpu t ticks sysElapsed → k.phase = .idle →
      ticks ≠ ticksForever → adm k.queue k.currTick (addDticks cfg k cpu ticks sysElapsed))
    (h : k.phase = .idle → Armed k) (hs : step B cfg k a = some (k', es)) :
    k'.phase = .idle → Armed k' := by
  intro hidle'
  have hnext' := w.next (hJ' hidle')
  cases a with
  | add cpu t ticks sysElapsed =>
    obtain ⟨-, hin, -, -, hcase⟩ := step_add hs
    have hidle : k.phase = .idle := by
      obtain ⟨rfl, -⟩ | ⟨-, -, -, -, hc, -⟩ := step_add_queue hs
      · exact hidle'
      · exact hc.phase.symm.trans hidle'
    obtain ⟨-, rfl, -⟩ | ⟨hne, q, first, hins, hk, -⟩ := hcase
    · exact h hidle
    have hany : anyCpuAnnouncing k = false := by simp [anyCpuAnnouncing, hcpu.1 hidle]
    cases first with
    | true =>
      simp only [hany] at hk
      rw [hk] at hnext' ⊢
      exact armed_setTimeout _ hnext'
    | false =>
      rw [hk]
      exact (h hidle).of_le rfl rfl
        (.inr (w.insert (hJ hidle) hin (hadm _ _ _ _ rfl hidle hne) hins))
  | abort cpu t sysElapsed =>
    obtain ⟨hc, -⟩ := step_abort_queue hs
    have hidle : k.phase = .idle := hc.phase.symm.trans hidle'
    obtain ⟨-, -, k₁, hk, hcase⟩ := step_abort hs
    have harmed : Armed k₁ := by
      obtain ⟨-, -, rfl⟩ | ⟨hin, -, hk₁⟩ := hcase
      · exact h hidle
      have hq : k₁.queue = (B.queue.remove k.queue k.currTick t).1 := by
        rw [hk₁]
        split
        · exact reprogram_queue _ _
        · rfl
      have hnext : B.queue.nextExpiry (B.queue.remove k.queue k.currTick t).1 k.currTick =
          ticksForever ∨
          0 < B.queue.nextExpiry (B.queue.remove k.queue k.currTick t).1 k.currTick := by
        rw [hc.currTick] at hnext'
        rcases hk with rfl | rfl <;> rwa [← hq]
      split at hk₁
      · rw [hk₁]
        exact armed_reprogram _ hnext
      · next hfirst =>
        rw [hk₁]
        exact (h hidle).of_le rfl rfl (w.remove (hJ hidle) hin (by simpa using hfirst))
    rcases hk with rfl | rfl
    · exact harmed
    · exact harmed.markSuperseded
  | announce cpu ticks =>
    obtain ⟨-, -, -, ⟨-, hsome, rfl⟩ | ⟨-, rfl⟩⟩ := step_announce hs
    · rw [hcpu.1 hidle'] at hsome
      simp at hsome
    · simp at hidle'
  | loop =>
    obtain ⟨hl, rfl, -⟩ := step_loop hs
    have heq := hloop hidle' hl
    rw [heq] at hnext' ⊢
    rw [announceEnd, reprogram_queue, (reprogram_clock cfg _ 0).currTick] at hnext'
    exact armed_reprogram 0 hnext'
  | handlerReturn =>
    obtain ⟨n, -, rfl, -⟩ := step_return hs
    simp at hidle'

end Step

/-- No pending timeout is nearer than the reported deadline; an insertion that lowers it says so;
and the last wait given to the driver ends by the earliest expiry. -/
structure Timely (B : Backend τ) (lowers : B.queue.State → ℕ → ℤ → Prop)
    (k : Kernel B.queue) : Prop where
  next_le : ∀ t, B.queue.isInactive k.queue t = false →
    B.queue.nextExpiry k.queue k.currTick ≤ B.queue.remainder k.queue k.currTick t
  insert : ∀ t d s' b, B.queue.isInactive k.queue t = true → lowers k.queue k.currTick d →
    B.queue.insert k.queue k.currTick t d = some (s', b) → b = true
  armed : ∀ t ticks now, B.queue.isInactive k.queue t = false →
    k.driver = some (.setTimeout ticks now) →
    ticks = 0 ∨ (now + ticks : ℤ) ≤ k.currTick + B.queue.remainder k.queue k.currTick t

section Generic

variable {D : DrainOps Q} {adm : ℕ → ℤ → Prop} {pick : List (τ × ℤ) → τ × ℤ → Prop}
  {R : Q.State → ℕ → List (τ × ℤ) → Prop}

structure Alarms (Q : Queue τ) (adm : ℕ → ℤ → Prop) (R : Q.State → ℕ → List (τ × ℤ) → Prop) :
    Prop where
  remainder : ∀ {s c p t e}, R s c p → (t, e) ∈ p → Q.remainder s c t = e - c
  nextExpiry : ∀ {s c p}, R s c p → (∀ x ∈ p, (c : ℤ) < x.2) →
    (p = [] ∧ Q.nextExpiry s c = ticksForever) ∨
      ∃ x ∈ p, Q.nextExpiry s c = x.2 - c ∧ ∀ y ∈ p, x.2 ≤ y.2
  insert : ∀ {s c p t d s' b}, R s c p → (∀ x ∈ p, (c : ℤ) < x.2) → t ∉ p.map Prod.fst → 1 ≤ d →
    d ≤ int64Max → adm c d → Q.insert s c t d = some (s', b) → (∀ x ∈ p, c + d < x.2) → b = true
  remove : ∀ {s c p t e}, R s c p → (∀ x ∈ p, (c : ℤ) < x.2) → (t, e) ∈ p →
    (Q.remove s c t).2 = false → ∃ x ∈ p, x.1 ≠ t ∧ x.2 ≤ e

def Rested (R : Q.State → ℕ → List (τ × ℤ) → Prop) (s : Q.State) (c : ℕ) : Prop :=
  ∃ p, R s c p ∧ ∀ x ∈ p, (c : ℤ) < x.2

def Lowers (adm : ℕ → ℤ → Prop) (s : Q.State) (c : ℕ) (d : ℤ) : Prop :=
  (1 ≤ d ∧ d ≤ int64Max ∧ adm c d) ∧ ∀ u, Q.isInactive s u = false → d < Q.remainder s c u

theorem Alarms.wakes (al : Alarms Q adm R) (r : Refines D adm pick R) :
    Wakes Q (Rested R) (fun _ c d => 1 ≤ d ∧ d ≤ int64Max ∧ adm c d) where
  next {s c} := by
    rintro ⟨p, hR, hf⟩
    obtain ⟨-, h⟩ | ⟨x, hx, h, -⟩ := al.nextExpiry hR hf
    · exact .inl h
    · have := hf x hx
      exact .inr (by omega)
  insert {s c t d s'} := by
    rintro ⟨p, hR, hf⟩ hin ⟨h1, hm, hd⟩ hins
    have ht := (r.inactive t hR).1 hin
    -- nothing was asked for, so some entry is no later than the new one
    obtain ⟨y, hy, hyd⟩ : ∃ y ∈ p, y.2 ≤ c + d := by
      by_contra hnone
      push Not at hnone
      exact absurd (al.insert hR hf ht h1 hm hd hins hnone) nofun
    have hR' := r.insert hR ht (by omega) hm hd hins
    have hf' : ∀ x ∈ p ++ [(t, (c : ℤ) + d)], (c : ℤ) < x.2 :=
      List.forall_mem_append.2 ⟨hf, by simp; omega⟩
    obtain ⟨hp, -⟩ | ⟨x, hx, hnext, hmin⟩ := al.nextExpiry hR hf
    · simp [hp] at hy
    obtain ⟨hp, -⟩ | ⟨x', hx', hnext', -⟩ := al.nextExpiry hR' hf'
    · simp at hp
    have hpos := hf x hx
    rw [hnext']
    refine ⟨by simp only [ticksForever]; omega, ?_⟩
    rcases List.mem_append.1 hx' with hx' | hx'
    · have := hmin x' hx'
      omega
    · rw [List.mem_singleton.1 hx']
      have := hmin y hy
      simp only
      omega
  remove {s c t} := by
    rintro ⟨p, hR, hf⟩ hin hfirst
    have ht : t ∈ p.map Prod.fst := by
      by_contra hnot
      exact absurd (hin.symm.trans ((r.inactive t hR).2 hnot)) nofun
    have hR' := r.remove hR ht
    have hf' : ∀ x ∈ dropKey t p, (c : ℤ) < x.2 := fun x hx => hf x (mem_dropKey.1 hx).1
    obtain ⟨-, hnext'⟩ | ⟨x', hx', hnext', -⟩ := al.nextExpiry hR' hf'
    · exact .inl hnext'
    right
    obtain ⟨hp, -⟩ | ⟨x, hx, hnext, hmin⟩ := al.nextExpiry hR hf
    · simp [hp] at ht
    have hpos := hf x hx
    have := hmin x' (mem_dropKey.1 hx').1
    exact ⟨by simp only [ticksForever]; omega, by omega⟩

theorem Alarms.timely (al : Alarms Q adm R) (r : Refines D adm pick R) {es : List (Event τ)}
    {k : Kernel Q} (h : Reaches (system (genericBackend D) cfg) (Action.meets adm cfg) es k)
    (hidle : k.phase = .idle) : Timely (genericBackend D) (Lowers adm) k := by
  have hinv : Tracks R pick es k ∧ (k.phase = .idle → Armed k) := by
    refine Run.invariant (I := fun es k => Tracks R pick es k ∧ (k.phase = .idle → Armed k))
      ⟨r.boot_tracks, fun _ => by rintro - - ⟨⟩⟩ ?_ h
    rintro es k a k' es' ⟨htr, harm⟩ ha hs
    have htr' := r.step_tracks htr ha hs
    refine ⟨htr', (al.wakes r).step (B := genericBackend D) htr.cpu
      (fun hi => ⟨_, htr.rel, htr.future (.inl hi)⟩)
      (fun hi => ⟨_, htr'.rel, htr'.future (.inl hi)⟩) ?_ ?_ harm hs⟩
    · intro hi hl
      simp only [genericLoop] at hi ⊢
      split at hi
      · split at hi
        · simp at hi
        · rename_i hp h0
          simp [h0]
      · split at hi <;> simp at hi
      · cases hp : k.phase <;> simp_all [Kernel.lockFree]
    · rintro cpu t ticks sysElapsed rfl hi _
      obtain ⟨-, hm, h1⟩ := addDticks_of_fits ha.1
      exact ⟨h1 (htr.cpu.1 hi), hm, ha.2 _ _ _ _ rfl⟩
  obtain ⟨htr, harm⟩ := hinv
  have hf := htr.future (.inl hidle)
  have hactive : ∀ t, Q.isInactive k.queue t = false → ∃ e, (t, e) ∈ pendingOf es := by
    intro t hin
    by_contra hnone
    refine absurd (hin.symm.trans ((r.inactive t htr.rel).2 fun hm => ?_)) (by simp)
    obtain ⟨⟨u, e⟩, hx, rfl⟩ := List.mem_map.1 hm
    exact hnone ⟨e, hx⟩
  have hle : ∀ t, Q.isInactive k.queue t = false →
      Q.nextExpiry k.queue k.currTick ≠ ticksForever ∧
        Q.nextExpiry k.queue k.currTick ≤ Q.remainder k.queue k.currTick t := by
    intro t hin
    obtain ⟨e, he⟩ := hactive t hin
    obtain ⟨hp, -⟩ | ⟨x, hx, hnext, hmin⟩ := al.nextExpiry htr.rel hf
    · simp [hp] at he
    have h1 := hf x hx
    have h2 := hmin _ he
    rw [al.remainder htr.rel he]
    exact ⟨by simp only [ticksForever]; omega, by simp only at h2; omega⟩
  refine ⟨fun t hin => (hle t hin).2, fun t d s' b hin hlow hins => ?_,
    fun t ticks now hin hdrv => ?_⟩
  · refine al.insert htr.rel hf ((r.inactive t htr.rel).1 hin) hlow.1.1 hlow.1.2.1 hlow.1.2.2 hins
      fun x hx => ?_
    have hin' : Q.isInactive k.queue x.1 = false := by
      rw [← Bool.not_eq_true, r.inactive x.1 htr.rel]
      exact not_not.2 (List.mem_map_of_mem hx)
    have := hlow.2 x.1 hin'
    rw [al.remainder htr.rel hx] at this
    omega
  · obtain ⟨hne, hle⟩ := hle t hin
    rcases harm hidle ticks now hdrv with h0 | h0 | h0
    · exact .inl h0
    · exact absurd h0 hne
    · right
      change (now + ticks : ℤ) ≤ k.currTick + Q.remainder k.queue k.currTick t
      omega

end Generic

open List

namespace DeltaList

theorem alarms : Alarms (queue τ) (fun _ _ => True) Holds where
  remainder h ht := h.remainder ht
  nextExpiry {s c p} h hf := by
    have hsort := h.sort
    simp only [zTimeoutQNextExpiry, zTimeoutQFirst]
    cases hl : s.list with
    | nil =>
      rw [hl] at hsort
      exact .inl ⟨(hsort.perm.nil_eq).symm, rfl⟩
    | cons u us =>
      rw [hl] at hsort
      refine .inr ⟨_, (hsort.mem_iff _).1 mem_cons_self, ?_, hsort.head.1⟩
      simp only [head?_cons]
      omega
  insert {s c p t d s' b} h _ _ _ _ _ hins hlow := by
    cases hins
    refine decide_eq_true ?_
    cases hl : s.list with
    | nil => rfl
    | cons u us =>
      have hsort := h.sort
      rw [hl] at hsort
      have hu := hlow _ ((hsort.mem_iff _).1 mem_cons_self)
      rw [deltaInsert, if_pos (by omega)]
      rfl
  remove {s c p t e} h _ ht hfirst := by
    have hsort := h.sort
    have hfirst : s.list.head? ≠ some t := of_decide_eq_false hfirst
    cases hl : s.list with
    | nil =>
      have := h.mem_list.2 (mem_map_of_mem ht)
      simp [hl] at this
    | cons u us =>
      rw [hl] at hsort
      refine ⟨_, (hsort.mem_iff _).1 mem_cons_self, ?_, hsort.head.1 _ ht⟩
      simpa [hl] using hfirst

end DeltaList

namespace Bucket

variable {W : Window}

theorem alarms : Alarms (queue W τ) (fun c d => (c : ℤ) + d < 2 ^ 64 ∧ d ≤ int64Max - 1)
    (fun s c p => Holds s c p ∧ ∀ x ∈ p, x.2 - c ≤ int64Max - 1) where
  remainder h ht := h.1.remainder ht
  nextExpiry {s c p} h hf := by
    obtain ⟨-, hle, hex⟩ := h.1.earliestGap_spec
    simp only [zTimeoutQNextExpiry]
    split
    · left
      refine ⟨eq_nil_iff_forall_not_mem.2 fun x hx => ?_, rfl⟩
      have h1 := hle x hx (hf x hx)
      have h2 := h.2 x hx
      omega
    · next hmax =>
      obtain ⟨x, hx, -, hxe⟩ := hex hmax
      refine .inr ⟨x, hx, by omega, fun y hy => ?_⟩
      have := hle y hy (hf y hy)
      omega
  insert {s c p t d s' b} h _ _ _ _ hadm hins hlow := by
    cases hins
    obtain ⟨-, -, hex⟩ := h.1.earliestGap_spec
    rw [decide_eq_true_eq]
    by_cases hmax : earliestGap s c = int64Max
    · omega
    · obtain ⟨x, hx, -, hxe⟩ := hex hmax
      have := hlow x hx
      omega
  remove {s c p t e} h _ ht hfirst := by
    obtain ⟨⟨-, -⟩, -, hex⟩ := h.1.earliestGap_spec
    have hlt : ¬zTimeoutQRemainder s c t ≤ earliestGap s c := of_decide_eq_false hfirst
    have hb := h.2 _ ht
    rw [h.1.remainder ht] at hlt
    obtain ⟨x, hx, -, hxe⟩ := hex (by omega)
    refine ⟨x, hx, ?_, by omega⟩
    rintro rfl
    have := (Prod.mk.inj (inj_on_of_nodup_map h.1.nodup ht hx rfl)).2
    omega

end Bucket

namespace SkipList

variable {L : Levels}

theorem alarms : Alarms (queue L τ) (fun c d => (c : ℤ) + d ≤ int64Max) (Holds L) where
  remainder h ht := h.gap ht
  nextExpiry {s c p} h hf := by
    have hfirst := h.first
    simp only [zTimeoutQNextExpiry]
    split
    · next hr =>
      simp only [hr] at hfirst
      exact .inl ⟨hfirst, rfl⟩
    · next t hr =>
      simp only [hr] at hfirst
      obtain ⟨e, he, hmin⟩ := hfirst
      have := hf _ he
      exact .inr ⟨_, he, by rw [h.gap he]; simp only; omega, hmin⟩
  insert {s c p t d s' b} h _ ht h1 hm hadm hins hlow := by
    have hfirst := (refines.insert h ht (by omega) hm hadm hins).first
    have hb : b = decide (skiplistFirst s' = some t) := by
      have heq : (zTimeoutQInsert L s c t d).2 =
        decide (skiplistFirst (zTimeoutQInsert L s c t d).1 = some t) := rfl
      rwa [show zTimeoutQInsert L s c t d = (s', b) from Option.some.inj hins] at heq
    rw [hb, decide_eq_true_eq]
    cases hr : skiplistFirst s' with
    | none =>
      simp only [hr] at hfirst
      simp at hfirst
    | some u =>
      simp only [hr] at hfirst
      obtain ⟨e, he, hmin⟩ := hfirst
      rcases mem_append.1 he with he | he
      · have h1 := hlow _ he
        have h2 := hmin (t, c + d) (by simp)
        omega
      · obtain ⟨rfl, -⟩ := Prod.mk.inj (mem_singleton.1 he)
        rfl
  remove {s c p t e} h _ ht hne := by
    have hfirst := h.first
    have hne : skiplistFirst s ≠ some t := of_decide_eq_false hne
    cases hr : skiplistFirst s with
    | none =>
      simp only [hr] at hfirst
      simp [hfirst] at ht
    | some u =>
      simp only [hr] at hfirst
      obtain ⟨e', he', hmin⟩ := hfirst
      exact ⟨_, he', by simpa [hr] using hne, hmin _ ht⟩

end SkipList

namespace MinHeap

variable {capacity : ℕ}

theorem alarms : Alarms (queue capacity τ) (fun c d => (c : ℤ) + d ≤ int64Max) Holds where
  remainder h ht := h.gap ht
  nextExpiry {s c p} h hf := by
    have hroot := h.root
    simp only [zTimeoutQNextExpiry]
    split
    · next hr =>
      simp only [hr] at hroot
      exact .inl ⟨hroot, rfl⟩
    · next t hr =>
      simp only [hr] at hroot
      obtain ⟨-, e, he, hmin⟩ := hroot
      exact .inr ⟨_, he, h.gap he, hmin⟩
  insert {s c p t d s' b} h _ ht h1 hm hadm hins hlow := by
    obtain ⟨h', hb⟩ := h.insert ht (by omega) hadm hins
    have hroot := h'.root
    rw [hb]
    cases hr : zTimeoutQRoot s' with
    | none =>
      simp only [hr] at hroot
      simp at hroot
    | some u =>
      simp only [hr] at hroot
      obtain ⟨hidx, e, he, hmin⟩ := hroot
      rcases mem_append.1 he with he | he
      · have h1 := hlow _ he
        have h2 := hmin (t, c + d) (by simp)
        omega
      · obtain ⟨rfl, -⟩ := Prod.mk.inj (mem_singleton.1 he)
        exact hidx
  remove {s c p t e} h _ ht hne := by
    have hroot := h.root
    have hne : s.heap.idx t ≠ 1 := of_decide_eq_false hne
    cases hr : zTimeoutQRoot s with
    | none =>
      simp only [hr] at hroot
      simp [hroot] at ht
    | some u =>
      simp only [hr] at hroot
      obtain ⟨hidx, e', he', hmin⟩ := hroot
      refine ⟨_, he', ?_, hmin _ ht⟩
      rintro rfl
      exact hne hidx

end MinHeap

end ZephyrRtos.Timeout
