import Mathlib
import ZephyrRtos.Lib.Bitmap
import ZephyrRtos.Lib.StableQueue
import ZephyrRtos.Sys.Rb

/-! `kernel/include/priority_q.h`: the three queues of ready threads, without deadlines and
CPU masks. -/

namespace ZephyrRtos.Sched

open Function Lib Sys

/-- The build: its priorities, the width of a `long`, and whether it is SMP. -/
structure Config where
  numCoopPriorities : ℕ
  numPreemptPriorities : ℕ
  coop_le : numCoopPriorities ≤ 128
  preempt_le : numPreemptPriorities ≤ 127
  is64 : Bool
  smp : Bool

namespace Config

variable (cfg : Config)

def highestThreadPrio : ℤ := -cfg.numCoopPriorities

def numThreadPrio : ℕ := cfg.numPreemptPriorities + cfg.numCoopPriorities + 1

def nbits : ℕ := if cfg.is64 then 64 else 32

def priqBitmapSize : ℕ := (cfg.numThreadPrio + cfg.nbits - 1) / cfg.nbits

def Valid (p : ℤ) : Prop := cfg.highestThreadPrio ≤ p ∧ p ≤ cfg.numPreemptPriorities

instance (p : ℤ) : Decidable (cfg.Valid p) := inferInstanceAs (Decidable (_ ∧ _))

end Config

variable {τ : Type} (prio : τ → ℤ)

def zSchedPrioCmp (thread1 thread2 : τ) : ℤ :=
  if prio thread1 ≠ prio thread2 then prio thread2 - prio thread1 else 0

section Simple

def zPriqSimpleAdd (thread : τ) : List τ → List τ
  | [] => [thread]
  | t :: ts => if 0 < zSchedPrioCmp prio thread t then thread :: t :: ts
      else t :: zPriqSimpleAdd thread ts

variable [DecidableEq τ]

def zPriqSimpleRemove (pq : List τ) (thread : τ) : List τ := pq.erase thread

/-- The search for the new place starts behind the old one. -/
def zPriqSimpleYield (smp : Bool) (pq : List τ) (current : τ) : List τ :=
  if smp then pq
  else
    pq.takeWhile (· ≠ current) ++ zPriqSimpleAdd prio current (pq.dropWhile (· ≠ current)).tail

def zPriqSimpleBest (pq : List τ) : Option τ := pq.head?

end Simple

section Rb

/-- `struct _priq_rb` and the `order_key` of every thread. -/
structure PriqRb (τ : Type) where
  tree : Rbtree τ
  nextOrderKey : ℕ
  orderKey : τ → ℕ

def zPriqRbLessthan (orderKey : τ → ℕ) (a b : τ) : Bool :=
  if 0 < zSchedPrioCmp prio a b then true
  else if zSchedPrioCmp prio a b < 0 then false
  else orderKey a < orderKey b

variable [DecidableEq τ]

def renumber (s : (τ → ℕ) × ℕ) (t : τ) : (τ → ℕ) × ℕ :=
  (update s.1 t s.2, (s.2 + 1) % 2 ^ 32)

def zPriqRbAdd (pq : PriqRb τ) (thread : τ) : Except RbFault (PriqRb τ) := do
  let orderKey := update pq.orderKey thread pq.nextOrderKey
  let nextOrderKey := (pq.nextOrderKey + 1) % 2 ^ 32
  let (orderKey, nextOrderKey) ← if nextOrderKey = 0 then do
      -- a tree of this depth has fewer nodes
      let threads ← rbForEach pq.tree (2 ^ pq.tree.maxDepth) pq.tree.foreachInit
      pure (threads.foldl renumber (orderKey, nextOrderKey))
    else pure (orderKey, nextOrderKey)
  let tree ← rbInsert (zPriqRbLessthan prio orderKey) pq.tree thread
  return ⟨tree, nextOrderKey, orderKey⟩

def zPriqRbRemove (pq : PriqRb τ) (thread : τ) : Except RbFault (PriqRb τ) := do
  let tree ← rbRemove (zPriqRbLessthan prio pq.orderKey) pq.tree thread
  return { pq with tree, nextOrderKey := if tree.root = none then 0 else pq.nextOrderKey }

def zPriqRbYield (smp : Bool) (pq : PriqRb τ) (current : τ) : Except RbFault (PriqRb τ) := do
  if smp then return pq
  zPriqRbAdd prio (← zPriqRbRemove prio pq current) current

def zPriqRbBest (pq : PriqRb τ) : Except RbFault (Option τ) :=
  zRbGetMinmax pq.tree.maxDepth pq.tree .left

end Rb

section Mq

variable (cfg : Config)

structure PriqMq (τ : Type) where
  queues : ℕ → List τ
  bitmask : ℕ → BitVec cfg.nbits
  cachedQueueIndex : ℕ

structure PrioInfo where
  offsetPrio : ℕ
  idx : ℕ
  bit : ℕ

def getPrioInfo (oldPrio : ℤ) : PrioInfo :=
  let offsetPrio := ((oldPrio - cfg.highestThreadPrio) % 2 ^ 8).toNat
  ⟨offsetPrio, offsetPrio / cfg.nbits, offsetPrio % cfg.nbits⟩

variable {cfg}

def bestQueueIndexFrom (bitmask : ℕ → BitVec cfg.nbits) : ℕ → ℕ → ℕ
  | 0, _ => cfg.numThreadPrio - 1
  | left + 1, i =>
    if bitmask i ≠ 0 then i * cfg.nbits + countTrailingZeros (bitmask i)
    else bestQueueIndexFrom bitmask left (i + 1)

def zPriqMqBestQueueIndex (bitmask : ℕ → BitVec cfg.nbits) : ℕ :=
  bestQueueIndexFrom bitmask cfg.priqBitmapSize 0

def zPriqMqInit : PriqMq cfg τ := ⟨fun _ => [], fun _ => 0, cfg.numThreadPrio - 1⟩

def zPriqMqAdd (pq : PriqMq cfg τ) (thread : τ) : PriqMq cfg τ :=
  let pos := getPrioInfo cfg (prio thread)
  { queues := update pq.queues pos.offsetPrio (pq.queues pos.offsetPrio ++ [thread])
    bitmask := update pq.bitmask pos.idx (pq.bitmask pos.idx ||| bit cfg.nbits pos.bit)
    cachedQueueIndex := if cfg.smp then pq.cachedQueueIndex
      else if pos.offsetPrio < pq.cachedQueueIndex then pos.offsetPrio else pq.cachedQueueIndex }

variable [DecidableEq τ]

def PriqMq.dequeue (pq : PriqMq cfg τ) (thread : τ) : PriqMq cfg τ :=
  { pq with queues := fun p => (pq.queues p).erase thread }

def zPriqMqRemove (pq : PriqMq cfg τ) (thread : τ) : PriqMq cfg τ :=
  let pos := getPrioInfo cfg (prio thread)
  let pq := pq.dequeue thread
  if pq.queues pos.offsetPrio = [] then
    let bitmask := update pq.bitmask pos.idx (pq.bitmask pos.idx &&& ~~~bit cfg.nbits pos.bit)
    { pq with
      bitmask
      cachedQueueIndex := if cfg.smp then pq.cachedQueueIndex else zPriqMqBestQueueIndex bitmask }
  else pq

def zPriqMqYield (pq : PriqMq cfg τ) (current : τ) : PriqMq cfg τ :=
  if cfg.smp then pq
  else
    let pos := getPrioInfo cfg (prio current)
    let pq := pq.dequeue current
    { pq with queues := update pq.queues pos.offsetPrio (pq.queues pos.offsetPrio ++ [current]) }

def zPriqMqBest (pq : PriqMq cfg τ) : Option τ :=
  let index := if cfg.smp then zPriqMqBestQueueIndex pq.bitmask else pq.cachedQueueIndex
  (pq.queues index).head?

end Mq

open List
variable {prio : τ → ℤ} {t u : τ} {q l : List τ}

def keyed (prio : τ → ℤ) (l : List τ) : List (τ × ℤ) := l.map fun t => (t, prio t)

theorem keyed_append : keyed prio (q ++ l) = keyed prio q ++ keyed prio l := map_append

theorem map_fst_keyed : (keyed prio l).map Prod.fst = l := by
  simp [keyed, comp_def]

theorem mem_keyed : x ∈ keyed prio l ↔ x.1 ∈ l ∧ x.2 = prio x.1 := by
  simp only [keyed, mem_map]
  constructor
  · rintro ⟨t, ht, rfl⟩
    exact ⟨ht, rfl⟩
  · rintro ⟨ht, hx⟩
    exact ⟨x.1, ht, by rw [← hx]⟩

theorem keyed_congr (h : ∀ t ∈ l, prio' t = prio t) : keyed prio' l = keyed prio l :=
  map_congr_left fun t ht => by rw [h t ht]

theorem prioCmp_pos : 0 < zSchedPrioCmp prio t u ↔ prio t < prio u := by
  rw [zSchedPrioCmp]
  split <;> omega

theorem prioCmp_neg : zSchedPrioCmp prio t u < 0 ↔ prio u < prio t := by
  rw [zSchedPrioCmp]
  split <;> omega

theorem argmin_of_first (ha : ∀ u ∈ a, prio u ≠ prio t) (hmin : ∀ u ∈ a ++ t :: b, prio t ≤ prio u)
    [DecidableEq τ] :
    (a ++ t :: b).argmin prio = some t := by
  rw [argmin_eq_some_iff]
  have hta : t ∉ a := fun h => ha t h rfl
  refine ⟨by simp, hmin, fun u hu hle => ?_⟩
  have hua : u ∉ a := fun h => ha u h (le_antisymm hle (hmin u hu))
  rw [idxOf_append_of_notMem hta, idxOf_append_of_notMem hua, idxOf_cons_self]
  omega

variable [DecidableEq τ]

theorem StableSort.best (h : StableSort (keyed prio l) (keyed prio q)) :
    l.head? = q.argmin prio := by
  cases l with
  | nil =>
    have hq : keyed prio q = [] := List.Perm.eq_nil h.perm.symm
    rw [map_eq_nil_iff.1 hq]
    rfl
  | cons t l =>
    obtain ⟨hmin, hfind⟩ := h.head
    obtain ⟨-, as, bs, heq, hne⟩ := find?_eq_some_iff_append.1 hfind
    obtain ⟨a, c, rfl, rfl, hc⟩ := map_eq_append_iff.1 heq
    obtain ⟨t', b, rfl, ht', -⟩ := map_eq_cons_iff.1 hc
    obtain ⟨rfl, -⟩ := Prod.mk.inj ht'
    refine (argmin_of_first (fun u hu hp => ?_) fun u hu => ?_).symm
    · have := hne (u, prio u) (mem_map_of_mem hu)
      simp [hasKey, hp] at this
    · exact hmin (u, prio u) (mem_keyed.2 ⟨hu, rfl⟩)

theorem dropKey_keyed (h : l.Nodup) : dropKey t (keyed prio l) = keyed prio (l.erase t) := by
  rw [dropKey, keyed, filter_map, h.erase_eq_filter]
  refine congrArg _ (filter_congr fun u _ => ?_)
  rw [Bool.eq_iff_iff]
  simp

section Simple

section

omit [DecidableEq τ]

theorem keyed_simpleAdd :
    keyed prio (zPriqSimpleAdd prio t l) = insertStable (t, prio t) (keyed prio l) := by
  induction l with
  | nil => rfl
  | cons u l ih =>
    simp only [zPriqSimpleAdd, prioCmp_pos, keyed, map_cons, insertStable] at ih ⊢
    split
    · rfl
    · rw [map_cons, ih]

theorem insertStable_append {x : τ × ℤ} {a b : List (τ × ℤ)} (ha : ∀ y ∈ a, y.2 ≤ x.2) :
    insertStable x (a ++ b) = a ++ insertStable x b := by
  induction a with
  | nil => rfl
  | cons y a ih =>
    rw [cons_append, insertStable, if_neg (ha y (by simp)).not_gt,
      ih fun z hz => ha z (mem_cons_of_mem _ hz), cons_append]

theorem insertStable_of_lt {x : τ × ℤ} {b : List (τ × ℤ)} (hb : ∀ y ∈ b, x.2 < y.2) :
    insertStable x b = x :: b := by
  cases b with
  | nil => rfl
  | cons y b => rw [insertStable, if_pos (hb y (by simp))]

end

theorem mem_split_at (h : t ∈ l) : l = l.takeWhile (· ≠ t) ++ t :: (l.dropWhile (· ≠ t)).tail := by
  induction l with
  | nil => simp at h
  | cons u l ih =>
    by_cases hu : u = t
    · simp [hu]
    · have := ih ((mem_cons.1 h).resolve_left (Ne.symm hu))
      simpa [hu] using this

theorem simpleYield_eq (hs : (keyed prio l).Pairwise fun x y => x.2 ≤ y.2) (hnd : l.Nodup)
    (ht : t ∈ l) :
    keyed prio (zPriqSimpleYield prio false l t) = insertStable (t, prio t) (keyed prio (l.erase t)) := by
  have hl := mem_split_at ht
  set a := l.takeWhile (· ≠ t)
  set b := (l.dropWhile (· ≠ t)).tail
  rw [hl] at hs hnd
  have hta : t ∉ a := by
    have := nodup_middle.1 hnd
    exact fun h => (nodup_cons.1 this).1 (mem_append_left _ h)
  have herase : l.erase t = a ++ b := by
    conv_lhs => rw [hl]
    rw [erase_append_right _ hta, erase_cons_head]
  rw [zPriqSimpleYield, if_neg nofun, keyed_append, keyed_simpleAdd, herase, keyed_append]
  refine (insertStable_append fun y hy => ?_).symm
  rw [keyed_append] at hs
  exact (pairwise_append.1 hs).2.2 y hy (t, prio t) (by simp [keyed])

end Simple

section Mq

variable {cfg : Config} {pq : PriqMq cfg τ}

theorem nbits_pos : 0 < cfg.nbits := by
  rw [Config.nbits]
  split <;> simp

def offset (cfg : Config) (p : ℤ) : ℕ := (p - cfg.highestThreadPrio).toNat

theorem offset_lt (h : cfg.Valid p) : offset cfg p < cfg.numThreadPrio := by
  have := h.2
  simp only [offset, Config.highestThreadPrio, Config.numThreadPrio]
  omega

theorem offset_le_offset (h : cfg.Valid p) (h' : cfg.Valid p') :
    offset cfg p ≤ offset cfg p' ↔ p ≤ p' := by
  have := h.1
  have := h'.1
  simp only [offset, Config.highestThreadPrio] at *
  omega

theorem getPrioInfo_eq (h : cfg.Valid p) : getPrioInfo cfg p =
    ⟨offset cfg p, offset cfg p / cfg.nbits, offset cfg p % cfg.nbits⟩ := by
  have hoff : ((p - cfg.highestThreadPrio) % 2 ^ 8).toNat = offset cfg p := by
    have h1 := h.1
    have h2 := h.2
    have := cfg.coop_le
    have := cfg.preempt_le
    simp only [offset, Config.highestThreadPrio] at *
    omega
  simp only [getPrioInfo, hoff]

def bitAt (bitmask : ℕ → BitVec cfg.nbits) (p : ℕ) : Bool :=
  (bitmask (p / cfg.nbits)).getLsbD (p % cfg.nbits)

theorem bitAt_update {bitmask : ℕ → BitVec cfg.nbits} {b : BitVec cfg.nbits} :
    bitAt (update bitmask (p / cfg.nbits) b) p' =
      if p' / cfg.nbits = p / cfg.nbits then b.getLsbD (p' % cfg.nbits) else bitAt bitmask p' := by
  rw [bitAt, bitAt]
  by_cases h : p' / cfg.nbits = p / cfg.nbits
  · simp [h]
  · rw [update_of_ne h, if_neg h]

theorem decide_eq_div_mod (cfg : Config) (p p' : ℕ) : decide (p' = p) =
    (decide (p' / cfg.nbits = p / cfg.nbits) && decide (p' % cfg.nbits = p % cfg.nbits)) := by
  rw [← Bool.decide_and]
  refine decide_eq_decide.2 ⟨fun h => h ▸ ⟨rfl, rfl⟩, fun ⟨h, h'⟩ => ?_⟩
  rw [← Nat.div_add_mod p' cfg.nbits, h, h', Nat.div_add_mod]

theorem bitAt_set :
    bitAt (update bitmask (p / cfg.nbits)
      (bitmask (p / cfg.nbits) ||| bit cfg.nbits (p % cfg.nbits))) p' =
      (bitAt bitmask p' || decide (p' = p)) := by
  rw [bitAt_update, getLsbD_or_bit _ (Nat.mod_lt _ nbits_pos), decide_eq_div_mod cfg p p']
  split
  · next h => simp [bitAt, h]
  · next h => simp [h]

theorem bitAt_clear :
    bitAt (update bitmask (p / cfg.nbits)
      (bitmask (p / cfg.nbits) &&& ~~~bit cfg.nbits (p % cfg.nbits))) p' =
      (bitAt bitmask p' && decide (p' ≠ p)) := by
  rw [bitAt_update, getLsbD_and_not_bit _ (Nat.mod_lt _ nbits_pos), decide_not, decide_not,
    decide_eq_div_mod cfg p p']
  split
  · next h => simp [bitAt, h]
  · next h => simp [h]

/-- The lowest set index, or the last one if no bit is set. -/
structure IsLowest (bitmask : ℕ → BitVec cfg.nbits) (i : ℕ) : Prop where
  le : ∀ p, bitAt bitmask p = true → i ≤ p
  set : (∃ p, bitAt bitmask p = true) → bitAt bitmask i = true
  none : (∀ p, bitAt bitmask p = false) → i = cfg.numThreadPrio - 1

theorem bestQueueIndexFrom_spec {bitmask : ℕ → BitVec cfg.nbits}
    (hlow : ∀ p, bitAt bitmask p = true → i ≤ p / cfg.nbits ∧ p / cfg.nbits < i + left) :
    IsLowest bitmask (bestQueueIndexFrom bitmask left i) := by
  induction left generalizing i with
  | zero =>
    have hnone : ∀ p, bitAt bitmask p = false := fun p => by
      by_contra h
      have := hlow p (by simpa using h)
      omega
    exact ⟨fun p hp => by simp [hnone p] at hp, fun ⟨p, hp⟩ => by simp [hnone p] at hp, fun _ => rfl⟩
  | succ left ih =>
    rw [bestQueueIndexFrom]
    split
    · next hne =>
      have hctz := getLsbD_ctz hne
      have hlt : countTrailingZeros (bitmask i) < cfg.nbits := BitVec.lt_of_getLsbD hctz
      have hdiv : (i * cfg.nbits + countTrailingZeros (bitmask i)) / cfg.nbits = i := by
        rw [mul_comm, Nat.mul_add_div nbits_pos, Nat.div_eq_of_lt hlt, add_zero]
      have hmod : (i * cfg.nbits + countTrailingZeros (bitmask i)) % cfg.nbits =
          countTrailingZeros (bitmask i) := by
        rw [mul_comm, Nat.mul_add_mod, Nat.mod_eq_of_lt hlt]
      have hset : bitAt bitmask (i * cfg.nbits + countTrailingZeros (bitmask i)) = true := by
        rwa [bitAt, hdiv, hmod]
      refine ⟨fun p hp => ?_, fun _ => hset, fun hnone => by simp [hnone] at hset⟩
      rw [← Nat.div_add_mod p cfg.nbits]
      rcases lt_or_eq_of_le (hlow p hp).1 with h | h
      · have := Nat.mul_le_mul_left cfg.nbits h
        rw [Nat.mul_succ, mul_comm] at this
        omega
      · rw [bitAt, ← h] at hp
        have := ctz_le hp
        rw [← h, mul_comm]
        omega
    · next hz =>
      refine ih fun p hp => ?_
      obtain ⟨h1, h2⟩ := hlow p hp
      refine ⟨?_, by omega⟩
      rcases lt_or_eq_of_le h1 with h | h
      · exact h
      · simp only [not_not] at hz
        rw [bitAt, ← h, hz] at hp
        simp at hp

structure MqRep (prio : τ → ℤ) (q : List τ) (pq : PriqMq cfg τ) : Prop where
  queues : ∀ p, pq.queues p = q.filter fun t => offset cfg (prio t) = p
  bits : ∀ p, bitAt pq.bitmask p = true ↔ pq.queues p ≠ []
  cached : cfg.smp = false → IsLowest pq.bitmask pq.cachedQueueIndex

theorem bestQueueIndex_lowest {bitmask : ℕ → BitVec cfg.nbits}
    (h : ∀ p, bitAt bitmask p = true → p < cfg.numThreadPrio) :
    IsLowest bitmask (zPriqMqBestQueueIndex bitmask) := by
  refine bestQueueIndexFrom_spec fun p hp => ⟨Nat.zero_le _, ?_⟩
  have hpos : 0 < cfg.nbits := nbits_pos
  have hle : (p + cfg.nbits) / cfg.nbits ≤ cfg.priqBitmapSize :=
    Nat.div_le_div_right (by have := h p hp; omega)
  rw [Nat.add_div_right _ hpos] at hle
  omega

namespace MqRep

section

omit [DecidableEq τ]

theorem init : MqRep prio [] (zPriqMqInit : PriqMq cfg τ) where
  queues _ := rfl
  bits p := by simp [bitAt, zPriqMqInit]
  cached _ := ⟨fun p hp => by simp [bitAt, zPriqMqInit] at hp,
    fun ⟨p, hp⟩ => by simp [bitAt, zPriqMqInit] at hp, fun _ => rfl⟩

theorem bit_of_mem (h : MqRep prio q pq) (ht : t ∈ q) :
    bitAt pq.bitmask (offset cfg (prio t)) = true := by
  rw [h.bits, h.queues]
  exact ne_nil_of_mem (mem_filter.2 ⟨ht, by simp⟩)

theorem lt_of_bit (h : MqRep prio q pq) (hv : ∀ t ∈ q, cfg.Valid (prio t))
    (hp : bitAt pq.bitmask p = true) : p < cfg.numThreadPrio := by
  rw [h.bits, h.queues] at hp
  obtain ⟨t, ht⟩ := exists_mem_of_ne_nil _ hp
  obtain ⟨htq, hoff⟩ := mem_filter.1 ht
  exact of_decide_eq_true hoff ▸ offset_lt (hv t htq)

end

theorem best (h : MqRep prio q pq) (hv : ∀ t ∈ q, cfg.Valid (prio t)) :
    zPriqMqBest pq = q.argmin prio := by
  rw [zPriqMqBest]
  have hlow : IsLowest pq.bitmask
      (if cfg.smp = true then zPriqMqBestQueueIndex pq.bitmask else pq.cachedQueueIndex) := by
    split
    · exact bestQueueIndex_lowest fun p => h.lt_of_bit hv
    · next hs => exact h.cached (by simpa using hs)
  generalize (if cfg.smp = true then zPriqMqBestQueueIndex pq.bitmask
    else pq.cachedQueueIndex) = i at hlow
  cases q with
  | nil => simp [h.queues]
  | cons u q =>
    have hne := (h.bits i).1 (hlow.set ⟨_, h.bit_of_mem mem_cons_self⟩)
    rw [h.queues] at hne
    obtain ⟨t, ts, hts⟩ := exists_cons_of_ne_nil hne
    obtain ⟨a, b, heq, ha, hoff, -⟩ := filter_eq_cons_iff.1 hts
    replace hoff : offset cfg (prio t) = i := by simpa using hoff
    simp only [h.queues, hts]
    have hmem : t ∈ u :: q := by simp [heq]
    rw [heq]
    refine (argmin_of_first (fun v hv hp => ?_) fun v hv' => ?_).symm
    · exact ha v hv (by simp [hp, hoff])
    · rw [← heq] at hv'
      exact (offset_le_offset (hv t hmem) (hv v hv')).1 (hoff ▸ hlow.le _ (h.bit_of_mem hv'))

theorem add (h : MqRep prio q pq) (ht : cfg.Valid (prio t)) :
    MqRep prio (q ++ [t]) (zPriqMqAdd prio pq t) := by
  rw [zPriqMqAdd, getPrioInfo_eq ht]
  dsimp only
  have hq : ∀ p, update pq.queues (offset cfg (prio t))
      (pq.queues (offset cfg (prio t)) ++ [t]) p =
      (q ++ [t]).filter fun u => offset cfg (prio u) = p := fun p => by
    rw [filter_append, ← h.queues]
    by_cases hp : p = offset cfg (prio t)
    · simp [hp]
    · simp [update_of_ne hp, Ne.symm hp]
  have hb : ∀ p, bitAt (update pq.bitmask (offset cfg (prio t) / cfg.nbits)
      (pq.bitmask (offset cfg (prio t) / cfg.nbits) ||| bit cfg.nbits
        (offset cfg (prio t) % cfg.nbits))) p = true ↔
      bitAt pq.bitmask p = true ∨ p = offset cfg (prio t) := fun p => by
    rw [bitAt_set]
    simp
  refine ⟨hq, fun p => ?_, fun hs => ?_⟩
  · dsimp only
    rw [hb, h.bits, hq, h.queues, filter_append]
    by_cases hp : p = offset cfg (prio t)
    · simp [hp]
    · simp [hp, Ne.symm hp]
  have hlow := h.cached hs
  have hlt := offset_lt ht
  simp only [hs, Bool.false_eq_true, if_false]
  refine ⟨fun p hp => ?_, fun _ => ?_, fun hnone => ?_⟩
  · rcases (hb p).1 hp with hp | rfl
    · have := hlow.le p hp
      split <;> omega
    · split <;> omega
  · rw [hb]
    split
    · exact .inr rfl
    · by_cases hex : ∃ p, bitAt pq.bitmask p = true
      · exact .inl (hlow.set hex)
      · have := hlow.none fun p => by simpa using fun hp => hex ⟨p, hp⟩
        exact .inr (by omega)
  · have := (hb (offset cfg (prio t))).2 (.inr rfl)
    simp [hnone] at this

@[simp] theorem dequeue_bitmask : (pq.dequeue t).bitmask = pq.bitmask := rfl

theorem queues_erase (h : MqRep prio q pq) (hnd : q.Nodup) (p : ℕ) :
    (pq.dequeue t).queues p = (q.erase t).filter fun u => offset cfg (prio u) = p := by
  change (pq.queues p).erase t = _
  rw [h.queues, (hnd.filter _).erase_eq_filter, hnd.erase_eq_filter, filter_comm]

theorem queues_erase_of_ne (h : MqRep prio q pq) (hp : p ≠ offset cfg (prio t)) :
    (pq.dequeue t).queues p = pq.queues p := by
  refine erase_of_not_mem fun hm => ?_
  rw [h.queues] at hm
  simp [hp.symm] at hm

section

variable (h : MqRep prio q pq) (hnd : q.Nodup) (hv : ∀ t ∈ q, cfg.Valid (prio t)) (ht : t ∈ q)
include h hnd hv ht

theorem remove : MqRep prio (q.erase t) (zPriqMqRemove prio pq t) := by
  rw [zPriqMqRemove, getPrioInfo_eq (hv t ht)]
  split
  · next hnil =>
    have hb : ∀ p, bitAt (update (pq.dequeue t).bitmask (offset cfg (prio t) / cfg.nbits)
        ((pq.dequeue t).bitmask (offset cfg (prio t) / cfg.nbits) &&& ~~~bit cfg.nbits
          (offset cfg (prio t) % cfg.nbits))) p = true ↔
        bitAt pq.bitmask p = true ∧ p ≠ offset cfg (prio t) := fun p => by
      rw [bitAt_clear]
      simp
    refine ⟨h.queues_erase hnd, fun p => ?_, fun hs => ?_⟩
    · rw [hb, h.bits]
      by_cases hp : p = offset cfg (prio t)
      · simp [hp, hnil]
      · simp [hp, h.queues_erase_of_ne hp]
    · simp only [hs]
      exact bestQueueIndex_lowest fun p hp => h.lt_of_bit hv ((hb p).1 hp).1
  · next hne =>
    refine ⟨h.queues_erase hnd, fun p => ?_, h.cached⟩
    by_cases hp : p = offset cfg (prio t)
    · simpa [hp, hne] using h.bit_of_mem ht
    · rw [h.queues_erase_of_ne hp]
      exact h.bits p

theorem yield (hs : cfg.smp = false) : MqRep prio (q.erase t ++ [t]) (zPriqMqYield prio pq t) := by
  rw [zPriqMqYield, hs, getPrioInfo_eq (hv t ht)]
  refine ⟨fun p => ?_, fun p => ?_, h.cached⟩
  · rw [filter_append, ← h.queues_erase hnd]
    by_cases hp : p = offset cfg (prio t)
    · simp [hp]
    · simp [update_of_ne hp, Ne.symm hp]
  · by_cases hp : p = offset cfg (prio t)
    · simpa [hp] using h.bit_of_mem ht
    · simp only [Bool.false_eq_true, if_false, update_of_ne hp, h.queues_erase_of_ne hp]
      exact h.bits p

end

end MqRep

end Mq

end ZephyrRtos.Sched
