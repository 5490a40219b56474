import ZephyrRtos.Lib.Run
import ZephyrRtos.Sched.PriorityQRb

namespace ZephyrRtos.Sched

open List Function Lib Sys RbTree RbPath

variable {τ : Type} [DecidableEq τ] {cfg : Config}

inductive PriqOp (τ : Type)
  | setPrio (t : τ) (p : ℤ)
  | add (t : τ)
  | remove (t : τ)
  | yield (t : τ)

/-- The three queues, the threads in them by the time they were added or last yielded, and
how often `z_priq_rb_add` was called since they were empty. -/
structure RunQueues (cfg : Config) (τ : Type) where
  prio : τ → ℤ
  arrived : List τ
  adds : ℕ
  simple : List τ
  rb : Except RbFault (PriqRb τ)
  mq : PriqMq cfg τ

def RunQueues.addsWithout (s : RunQueues cfg τ) (t : τ) : ℕ :=
  if s.arrived.erase t = [] then 0 else s.adds

/-- A priority changes only out of the queue; on SMP the current thread is not in it. -/
def runQueues (cfg : Config) (m : Rbnodes τ) (k : τ → ℕ) (prio : τ → ℤ) :
    System (RunQueues cfg τ) (PriqOp τ) Empty where
  init := ⟨prio, [], 0, [], .ok ⟨⟨none, 0, m⟩, 0, k⟩, zPriqMqInit⟩
  step s
    | .setPrio t p =>
      if t ∉ s.arrived ∧ cfg.Valid p then some ({ s with prio := Function.update s.prio t p }, [])
      else none
    | .add t =>
      if t ∉ s.arrived then some ({ s with
        arrived := s.arrived ++ [t]
        adds := s.adds + 1
        simple := zPriqSimpleAdd s.prio t s.simple
        rb := do zPriqRbAdd s.prio (← s.rb) t
        mq := zPriqMqAdd s.prio s.mq t }, [])
      else none
    | .remove t =>
      if t ∈ s.arrived then some ({ s with
        arrived := s.arrived.erase t
        adds := s.addsWithout t
        simple := zPriqSimpleRemove s.simple t
        rb := do zPriqRbRemove s.prio (← s.rb) t
        mq := zPriqMqRemove s.prio s.mq t }, [])
      else none
    | .yield t =>
      if cfg.smp = false ∧ t ∈ s.arrived ∨ cfg.smp = true ∧ t ∉ s.arrived then some ({ s with
        arrived := if cfg.smp then s.arrived else s.arrived.erase t ++ [t]
        adds := if cfg.smp then s.adds else s.addsWithout t + 1
        simple := zPriqSimpleYield s.prio cfg.smp s.simple t
        rb := do zPriqRbYield s.prio cfg.smp (← s.rb) t
        mq := zPriqMqYield s.prio s.mq t }, [])
      else none

/-- Fewer than `2 ^ 32` calls of `z_priq_rb_add` between two empty states. -/
def FewAdds (s : RunQueues cfg τ) : PriqOp τ → Prop
  | .add _ => s.adds + 1 < 2 ^ 32
  | .yield t => cfg.smp = true ∨ s.addsWithout t + 1 < 2 ^ 32
  | _ => True

/-- No key has been given out twice. -/
structure Fresh (q : List τ) (adds : ℕ) (pq : PriqRb τ) : Prop where
  next : pq.nextOrderKey = adds
  below : ∀ u ∈ q, pq.orderKey u < adds

structure RunQueues.Agree (s : RunQueues cfg τ) : Prop where
  valid : ∀ t, cfg.Valid (s.prio t)
  nodup : s.arrived.Nodup
  simple : StableSort (keyed s.prio s.simple) (keyed s.prio s.arrived)
  rb : ∃ pq T, s.rb = .ok pq ∧ RbRep s.prio s.arrived pq T ∧ Fresh s.arrived s.adds pq
  mq : MqRep s.prio s.arrived s.mq

section Steps

variable {s : RunQueues cfg τ} {t : τ}

theorem Fresh.add (hf : Fresh q n pq) (h : RbRep prio q pq T) (ht : t ∉ q) (hn : n + 1 < 2 ^ 32) :
    ∃ pq' T', zPriqRbAdd prio pq t = .ok pq' ∧ RbRep prio (q ++ [t]) pq' T' ∧
      Fresh (q ++ [t]) (n + 1) pq' := by
  obtain ⟨pq', T', heq, hr, hkt, hk, -⟩ := h.add ht fun u hu => hf.next ▸ hf.below u hu
  obtain ⟨hnext, hold⟩ := hk (by rw [hf.next]; exact hn)
  refine ⟨pq', T', heq, hr, by rw [hnext, hf.next], fun u hu => ?_⟩
  rcases mem_append.1 hu with hu | hu
  · have := hf.below u hu
    rw [hold u hu]
    omega
  · rw [mem_singleton.1 hu, hkt, hf.next]
    omega

theorem Fresh.remove (hf : Fresh q n pq) (h : RbRep prio q pq T) (ht : t ∈ q) :
    ∃ pq' T', zPriqRbRemove prio pq t = .ok pq' ∧ RbRep prio (q.erase t) pq' T' ∧
      Fresh (q.erase t) (if q.erase t = [] then 0 else n) pq' := by
  obtain ⟨pq', T', heq, hr, hk, hnext⟩ := h.remove ht
  refine ⟨pq', T', heq, hr, by rw [hnext, hf.next], fun u hu => ?_⟩
  rw [hk, if_neg (ne_nil_of_mem hu)]
  exact hf.below u (mem_of_mem_erase hu)

theorem RunQueues.Agree.mem_simple (h : s.Agree) : t ∈ s.simple ↔ t ∈ s.arrived := by
  have := (h.simple.perm.map Prod.fst).mem_iff (a := t)
  rwa [map_fst_keyed, map_fst_keyed] at this

theorem RunQueues.Agree.nodup_simple (h : s.Agree) : s.simple.Nodup := by
  have := h.simple.nodup_iff
  rw [map_fst_keyed, map_fst_keyed] at this
  exact this.2 h.nodup

theorem RunQueues.Agree.setPrio (h : s.Agree) (ht : t ∉ s.arrived) (hp : cfg.Valid p) :
    RunQueues.Agree { s with prio := update s.prio t p } := by
  have hold : ∀ u ∈ s.arrived, update s.prio t p u = s.prio u := fun u hu => by
    rw [update_of_ne]
    rintro rfl
    exact ht hu
  obtain ⟨pq, T, heq, hr, hf⟩ := h.rb
  refine ⟨fun u => ?_, h.nodup, ?_, ⟨pq, T, heq, hr.congr hold, hf⟩, ?_⟩
  · by_cases hu : u = t
    · simp only [hu, update_self]
      exact hp
    · simp only [update_of_ne hu]
      exact h.valid u
  · rw [keyed_congr hold, keyed_congr fun u hu => hold u (h.mem_simple.1 hu)]
    exact h.simple
  · refine ⟨fun i => ?_, h.mq.bits, h.mq.cached⟩
    rw [h.mq.queues]
    exact filter_congr fun u hu => by simp [hold u hu]

theorem RunQueues.Agree.step (h : s.Agree) {s' : RunQueues cfg τ} {op : PriqOp τ} {es : List Empty}
    {m : Rbnodes τ} {k : τ → ℕ} {prio : τ → ℤ} (hok : FewAdds s op)
    (hs : (runQueues cfg m k prio).step s op = some (s', es)) : s'.Agree := by
  obtain ⟨pq, T, hrb, hr, hf⟩ := h.rb
  have hvalid : ∀ t ∈ s.arrived, cfg.Valid (s.prio t) := fun t _ => h.valid t
  cases op <;>
    simp only [runQueues, Option.ite_none_right_eq_some] at hs
  all_goals obtain ⟨hcond, rfl, -⟩ := hs
  case setPrio t p => exact h.setPrio hcond.1 hcond.2
  case add t =>
    refine ⟨h.valid, ?_, ?_, ?_, h.mq.add (h.valid t)⟩
    · exact nodup_append'.2 ⟨h.nodup, nodup_singleton t, by simpa using hcond⟩
    · rw [keyed_simpleAdd, keyed_append]
      exact h.simple.insert _
    · simp only [hrb]
      exact hf.add hr hcond hok
  case remove t =>
    refine ⟨h.valid, h.nodup.erase t, ?_, ?_, h.mq.remove h.nodup hvalid hcond⟩
    · rw [zPriqSimpleRemove, ← dropKey_keyed h.nodup_simple, ← dropKey_keyed h.nodup]
      exact h.simple.dropKey t
    · simp only [hrb]
      exact hf.remove hr hcond
  case yield t =>
    rcases hcond with ⟨hsmp, ht⟩ | ⟨hsmp, -⟩
    · simp only [hsmp, Bool.false_eq_true, if_false]
      refine ⟨h.valid, ?_, ?_, ?_, h.mq.yield h.nodup hvalid ht hsmp⟩
      · exact nodup_append'.2 ⟨h.nodup.erase t, nodup_singleton t, by
          simpa using h.nodup.not_mem_erase⟩
      · rw [simpleYield_eq h.simple.sorted h.nodup_simple (h.mem_simple.2 ht), keyed_append,
          ← dropKey_keyed h.nodup_simple, ← dropKey_keyed h.nodup]
        exact (h.simple.dropKey t).insert _
      · obtain ⟨pq1, T1, heq1, hr1, hf1⟩ := hf.remove hr ht
        have hlt : s.addsWithout t + 1 < 2 ^ 32 := hok.resolve_left (by simp [hsmp])
        simp only [hrb, ok_bind, zPriqRbYield, heq1]
        exact hf1.add hr1 h.nodup.not_mem_erase hlt
    · -- the call does nothing
      simp only [hsmp, zPriqMqYield, hrb]
      exact ⟨h.valid, h.nodup, h.simple, ⟨pq, T, rfl, hr, hf⟩, h.mq⟩

end Steps

instance (s : RunQueues cfg τ) (op : PriqOp τ) : Decidable (FewAdds s op) := by
  cases op <;> unfold FewAdds <;> infer_instance

/-- The three queues return the same thread: the first to arrive of those of the best
priority. -/
theorem priq_backends_agree {m : Rbnodes τ} {k : τ → ℕ} {prio : τ → ℤ} {es : List Empty}
    {s : RunQueues cfg τ} (hv : ∀ t, cfg.Valid (prio t))
    (h : Reaches (runQueues cfg m k prio) FewAdds es s) :
    zPriqSimpleBest s.simple = s.arrived.argmin s.prio ∧
    (s.rb >>= zPriqRbBest) = .ok (s.arrived.argmin s.prio) ∧
    zPriqMqBest s.mq = s.arrived.argmin s.prio ∧
    (∀ p, bitAt s.mq.bitmask p = true ↔ s.mq.queues p ≠ []) ∧
    (cfg.smp = false → IsLowest s.mq.bitmask s.mq.cachedQueueIndex) := by
  have ha : s.Agree := by
    refine Run.invariant (I := fun _ s => s.Agree) ?_ (fun _ s op s' _ hs hok hstep =>
      hs.step hok hstep) h
    exact ⟨hv, .nil, .nil, ⟨_, nil, rfl, .init m k, rfl, by simp [runQueues]⟩, .init⟩
  obtain ⟨pq, T, hrb, hr, -⟩ := ha.rb
  refine ⟨StableSort.best ha.simple, ?_, ha.mq.best fun t _ => ha.valid t, ha.mq.bits, ha.mq.cached⟩
  rw [hrb]
  exact hr.best

def smallConfig : Config := ⟨16, 15, by decide, by decide, false, false⟩

theorem priq_backends_agree_sample : ∃ es s,
    Reaches (runQueues smallConfig ⟨fun _ _ => none, fun _ => .red⟩ (fun _ => 0) fun _ : ℕ => 3)
      FewAdds es s ∧ s.arrived = [2, 1] ∧
    zPriqSimpleBest s.simple = s.arrived.argmin s.prio ∧
    (s.rb >>= zPriqRbBest) = .ok (s.arrived.argmin s.prio) ∧
    zPriqMqBest s.mq = s.arrived.argmin s.prio ∧
    (∀ p, bitAt s.mq.bitmask p = true ↔ s.mq.queues p ≠ []) ∧
    (smallConfig.smp = false → IsLowest s.mq.bitmask s.mq.cachedQueueIndex) := by
  exact Reaches.of_exec_and [.add 1, .add 2, .yield 1] (by decide +kernel)
    fun es s hrun => priq_backends_agree fun _ => by decide hrun

section OrderKeys

inductive RbQueueOp (τ : Type)
  | setPrio (t : τ) (p : ℤ)
  | add (t : τ)
  | remove (t : τ)

/-- One tree, and the threads in it in order of arrival. -/
structure RbQueue (τ : Type) where
  prio : τ → ℤ
  arrived : List τ
  pq : Except RbFault (PriqRb τ)

def rbQueue (m : Rbnodes τ) (k : τ → ℕ) (prio : τ → ℤ) : System (RbQueue τ) (RbQueueOp τ) Empty where
  init := ⟨prio, [], .ok ⟨⟨none, 0, m⟩, 0, k⟩⟩
  step s
    | .setPrio t p =>
      if t ∉ s.arrived then some ({ s with prio := Function.update s.prio t p }, []) else none
    | .add t =>
      if t ∉ s.arrived then some ({ s with
        arrived := s.arrived ++ [t]
        pq := do zPriqRbAdd s.prio (← s.pq) t }, [])
      else none
    | .remove t =>
      if t ∈ s.arrived then some ({ s with
        arrived := s.arrived.erase t
        pq := do zPriqRbRemove s.prio (← s.pq) t }, [])
      else none

/-- When a thread is added, no other one has a key at or above the next. -/
def KeysBelow (s : RbQueue τ) : RbQueueOp τ → Prop
  | .add _ => ∀ pq, s.pq = .ok pq → ∀ u ∈ s.arrived, pq.orderKey u < pq.nextOrderKey
  | _ => True

/-- The keys are distinct, follow the arrivals within a priority, and `best` is the longest
waiting thread of the best one. -/
def KeyLaw (s : RbQueue τ) : Prop :=
  ∃ pq, s.pq = .ok pq ∧ (s.arrived.map pq.orderKey).Nodup ∧
    s.arrived.Pairwise (fun a b => s.prio a = s.prio b → pq.orderKey a < pq.orderKey b) ∧
    zPriqRbBest pq = .ok (s.arrived.argmin s.prio)

variable {m : Rbnodes τ} {k : τ → ℕ} {prio : τ → ℤ} {s s' : RbQueue τ} {es : List Empty}

theorem RbRep.keys (h : RbRep prio q pq T) :
    q.Pairwise fun a b => prio a = prio b → pq.orderKey a < pq.orderKey b := by
  rw [pairwise_iff_forall_sublist]
  intro a b hab hp
  have hf := congrArg (map Prod.fst) (h.stable.stable (prio a))
  have hkeyed : ∀ l : List τ, ((keyed prio l).filter (hasKey (prio a))).map Prod.fst =
      l.filter fun u => prio u = prio a := fun l => by
    rw [keyed, filter_map, map_map]
    simp [comp_def, hasKey]
  rw [hkeyed, hkeyed] at hf
  have hsub : [a, b].Sublist (T.toList.filter fun u => prio u = prio a) := by
    rw [hf]
    simpa [hp] using hab.filter fun u => prio u = prio a
  have := pairwise_iff_forall_sublist.1 h.sorted (hsub.trans filter_sublist)
  rw [lessthan_iff] at this
  omega

def lowFirst (t : ℕ) : ℤ := if t = 0 then 1 else 0

theorem reaches_next_order_key {m : Rbnodes ℕ} {k : ℕ → ℕ} (n : ℕ) (hn : n + 1 < 2 ^ 32) :
    ∃ pq T, Reaches (rbQueue m k lowFirst) (fun _ _ => True) [] ⟨lowFirst, [0], .ok pq⟩ ∧
      RbRep lowFirst [0] pq T ∧ pq.orderKey 0 = 0 ∧ pq.nextOrderKey = n + 1 := by
  induction n with
  | zero =>
    have hinit : RbRep lowFirst [] _ nil := .init m k
    obtain ⟨pq, T, heq, hr, hkey, hnext, -⟩ := hinit.add nofun nofun
    refine ⟨pq, T, .single (.add 0) trivial ?_, hr, hkey, (hnext (by simp)).1⟩
    simp [rbQueue, heq]
  | succ n ih =>
    obtain ⟨pq, T, hrun, hr, hkey, hnext⟩ := ih (by omega)
    obtain ⟨pq1, T1, heq1, hr1, -, hk1, -⟩ := hr.add (t := 1) nofun (by simp [hkey, hnext])
    obtain ⟨hnext1, hold1⟩ := hk1 (by omega)
    obtain ⟨pq2, T2, heq2, hr2, hkey2, hnext2⟩ := hr1.remove (t := 1) (by simp)
    refine ⟨pq2, T2, ?_, hr2, ?_, ?_⟩
    · have hadd : Run (rbQueue m k lowFirst) (fun _ _ => True) ⟨lowFirst, [0], .ok pq⟩ []
          ⟨lowFirst, [0, 1], .ok pq1⟩ := .single (.add 1) trivial (by simp [rbQueue, heq1])
      have hremove : Run (rbQueue m k lowFirst) (fun _ _ => True) ⟨lowFirst, [0, 1], .ok pq1⟩ []
          ⟨lowFirst, [0], .ok pq2⟩ := .single (.remove 1) trivial (by simp [rbQueue, heq2])
      exact (hrun.trans hadd).trans hremove
    · rw [hkey2, hold1 0 (by simp), hkey]
    · simp [hnext2, hnext1, hnext]

end OrderKeys

end ZephyrRtos.Sched
