import ZephyrRtos.Sys.MinHeapRef
import ZephyrRtos.Timeout.Refinement

/-! `kernel/timeout_minheap.h`: a binary heap keyed on the absolute expiry tick. -/

namespace ZephyrRtos.Timeout.MinHeap

open List Function Lib Sys

variable {τ : Type} [DecidableEq τ]

structure State (τ : Type) where
  heap : MinHeapRef τ
  absTicks : τ → ℤ

def empty : State τ := ⟨.empty, fun _ => 0⟩

def timeoutLess (absTicks : τ → ℤ) (a b : τ) : Bool := decide (absTicks a < absTicks b)

def zTimeoutQRoot (s : State τ) : Option τ := minHeapRefPeek s.heap

/-- `none` is the panic on a full heap, or a failed assertion in the push. -/
def zTimeoutQInsert (capacity : ℕ) (s : State τ) (c : ℕ) (t : τ) (dticks : ℤ) :
    Option (State τ × Bool) :=
  let absTicks := update s.absTicks t (int64 (c + dticks))
  match minHeapRefPush (timeoutLess absTicks) capacity s.heap t with
  | some (heap, true) => some (⟨heap, absTicks⟩, decide (heap.idx t = 1))
  | _ => none

def zTimeoutQRemove (s : State τ) (t : τ) : State τ × Bool :=
  ({ s with heap := (minHeapRefRemove (timeoutLess s.absTicks) s.heap t).1 },
    decide (s.heap.idx t = 1))

def zTimeoutQRemainder (s : State τ) (c : ℕ) (t : τ) : ℤ := int64 (s.absTicks t - c)

def zTimeoutQNextExpiry (s : State τ) (c : ℕ) : ℤ :=
  match zTimeoutQRoot s with
  | none => ticksForever
  | some t => int64 (s.absTicks t - c)

def zTimeoutQNextGap (s : State τ) (c : ℕ) : ℤ :=
  match zTimeoutQRoot s with
  | none => int32Max
  | some t => int32 (min (int64 (s.absTicks t - c)) int32Max)

def zTimeoutQPopDue (s : State τ) (c : ℕ) : Option (τ × State τ) :=
  match zTimeoutQRoot s with
  | none => none
  | some t =>
    if int64 c < s.absTicks t then none
    else (minHeapRefPop (timeoutLess s.absTicks) s.heap).map fun r => (r.1, { s with heap := r.2 })

abbrev queue (capacity : ℕ) (τ : Type) [DecidableEq τ] : Queue τ where
  State := State τ
  init := empty
  isInactive s t := decide (s.heap.idx t = 0)
  insert s c t d := zTimeoutQInsert capacity s c t d
  remove s _ t := zTimeoutQRemove s t
  remainder s c t := zTimeoutQRemainder s c t
  nextExpiry s c := zTimeoutQNextExpiry s c

abbrev drainOps (capacity : ℕ) (τ : Type) [DecidableEq τ] : DrainOps (queue capacity τ) where
  nextGap s c := zTimeoutQNextGap s c
  advance s _ _ := s
  popDue s c := zTimeoutQPopDue s c

abbrev backend (capacity : ℕ) (τ : Type) [DecidableEq τ] : Backend τ :=
  genericBackend (drainOps capacity τ)

/-- The heap holds the timeouts of `p` under their expiry ticks. -/
structure Holds (s : State τ) (c : ℕ) (p : List (τ × ℤ)) : Prop where
  placed : s.heap.Placed
  ordered : HeapOrdered (MinHeapRef.keyAt s.absTicks 0 s.heap) s.heap.size
  nodup : (p.map Prod.fst).Nodup
  members : ∀ t, s.heap.idx t = 0 ↔ t ∉ p.map Prod.fst
  keys : ∀ x ∈ p, s.absTicks x.1 = x.2
  due : ∀ x ∈ p, (c : ℤ) ≤ x.2
  bound : ∀ x ∈ p, x.2 ≤ int64Max

section Holds

variable {capacity : ℕ} {s : State τ} {c : ℕ} {p : List (τ × ℤ)} {t : τ} {e : ℤ}

section

omit [DecidableEq τ]

theorem timeoutLess_iff (absTicks : τ → ℤ) (a b : τ) :
    timeoutLess absTicks a b = true ↔ absTicks a < absTicks b := by
  simp [timeoutLess]

theorem Holds.gap (h : Holds s c p) (ht : (t, e) ∈ p) : int64 (s.absTicks t - c) = e - c := by
  have hk := h.keys _ ht
  have hd := h.due _ ht
  have hb := h.bound _ ht
  rw [hk]
  exact int64_eq

theorem Holds.root (h : Holds s c p) :
    match zTimeoutQRoot s with
    | none => p = []
    | some t => s.heap.idx t = 1 ∧ ∃ e, (t, e) ∈ p ∧ ∀ x ∈ p, e ≤ x.2 := by
  have hmem : ∀ x ∈ p, ∃ i < s.heap.size, s.heap.storage i = some x.1 := by
    intro x hx
    rcases h.placed.member x.1 with h0 | hi
    · exact absurd (mem_map_of_mem hx) ((h.members x.1).1 h0)
    · exact hi
  by_cases hsize : s.heap.size = 0
  · simp only [zTimeoutQRoot, minHeapRefPeek, if_pos hsize]
    refine eq_nil_iff_forall_not_mem.2 fun x hx => ?_
    obtain ⟨i, hi, -⟩ := hmem x hx
    omega
  obtain ⟨t, hst, hidx⟩ := h.placed.slot 0 (by omega)
  simp only [zTimeoutQRoot, minHeapRefPeek, if_neg hsize, hst]
  have htp : t ∈ p.map Prod.fst := by
    by_contra hnot
    have := (h.members t).2 hnot
    omega
  obtain ⟨⟨t, e⟩, hte, rfl⟩ := mem_map.1 htp
  refine ⟨hidx, e, hte, fun x hx => ?_⟩
  obtain ⟨i, hi, hsi⟩ := hmem x hx
  have hle := h.ordered.root_le hi
  simp only [MinHeapRef.keyAt, hst, hsi, Option.elim_some] at hle
  rwa [h.keys _ hte, h.keys _ hx] at hle

theorem Holds.nextGap (h : Holds s c p) (hf : ∀ x ∈ p, (c : ℤ) < x.2) :
    0 < zTimeoutQNextGap s c ∧ zTimeoutQNextGap s c ≤ int32Max ∧
      ∀ x ∈ p, c + zTimeoutQNextGap s c ≤ x.2 := by
  have hroot := h.root
  simp only [zTimeoutQNextGap]
  cases hr : zTimeoutQRoot s with
  | none =>
    simp only [hr] at hroot
    simp [hroot, int32Max]
  | some t =>
    simp only [hr] at hroot
    obtain ⟨-, e, hte, hmin⟩ := hroot
    have hpos := hf _ hte
    simp only at hpos ⊢
    rw [h.gap hte, int32_eq (by simp only [int32Max]; omega) (min_le_right _ _)]
    refine ⟨by simp only [int32Max]; omega, min_le_right _ _, fun x hx => ?_⟩
    have := hmin x hx
    omega

end

theorem Holds.remove (h : Holds s c p) (ht : t ∈ p.map Prod.fst) :
    Holds (zTimeoutQRemove s t).1 c (dropKey t p) := by
  have hidx : s.heap.idx t ≠ 0 := fun h0 => (h.members t).1 h0 ht
  obtain ⟨hp, hsize, hmem, hord⟩ := h.placed.remove (timeoutLess s.absTicks) (κ := ℤ) hidx
  refine ⟨hp, ?_, nodup_dropKey h.nodup, fun u => ?_, fun x hx => h.keys x (mem_dropKey.1 hx).1,
    fun x hx => h.due x (mem_dropKey.1 hx).1, fun x hx => h.bound x (mem_dropKey.1 hx).1⟩
  · have hsize' : (zTimeoutQRemove s t).1.heap.size = s.heap.size - 1 := hsize
    rw [hsize']
    exact hord s.absTicks 0 (timeoutLess_iff _) h.ordered
  · have hu := hmem u
    rw [h.members u] at hu
    rw [map_fst_dropKey, mem_filter, decide_eq_true_eq]
    exact hu.trans (by tauto)

theorem Holds.insert (h : Holds s c p) (ht : t ∉ p.map Prod.fst) (h0 : 0 ≤ d)
    (hm : (c : ℤ) + d ≤ int64Max) (hins : zTimeoutQInsert capacity s c t d = some (s', b)) :
    Holds s' c (p ++ [(t, c + d)]) ∧ (b = true ↔ s'.heap.idx t = 1) := by
  have hexp : int64 (c + d) = c + d := int64_eq hm
  simp only [zTimeoutQInsert, hexp] at hins
  split at hins
  case h_2 => simp at hins
  next heap hpush =>
  cases hins
  obtain ⟨hp, -, hmem, hord⟩ := h.placed.push (κ := ℤ) hpush rfl
  have hidx : s.heap.idx t = 0 := (h.members t).2 ht
  -- no stored handle is `t`, so the old keys are unchanged
  have hold : HeapOrdered (MinHeapRef.keyAt (update s.absTicks t (c + d)) 0 s.heap)
      s.heap.size := by
    have hkey : ∀ i < s.heap.size,
        MinHeapRef.keyAt (update s.absTicks t ((c : ℤ) + d)) 0 s.heap i =
          MinHeapRef.keyAt s.absTicks 0 s.heap i := by
      intro i hi
      obtain ⟨u, hu, huidx⟩ := h.placed.slot i hi
      have hut : u ≠ t := by
        rintro rfl
        omega
      simp [MinHeapRef.keyAt, hu, hut]
    intro i hi hin
    have hlt := heapParent_lt hi
    rw [hkey i hin, hkey _ (by omega)]
    exact h.ordered i hi hin
  refine ⟨⟨hp, hord _ 0 (timeoutLess_iff _) hold, nodup_snoc h.nodup ht, fun u => ?_, ?_, ?_, ?_⟩,
    by simp⟩
  · have hu := hmem u
    rw [h.members u] at hu
    rw [map_append, mem_append, map_singleton, mem_singleton]
    tauto
  · refine forall_mem_append.2 ⟨fun x hx => ?_, by simp⟩
    have hxt : x.1 ≠ t := by
      rintro rfl
      exact ht (mem_map_of_mem hx)
    simpa [hxt] using h.keys x hx
  · exact forall_mem_append.2 ⟨h.due, by simpa using h0⟩
  · exact forall_mem_append.2 ⟨h.bound, by simpa using hm⟩

theorem refines : Refines (drainOps capacity τ) (fun c d => (c : ℤ) + d ≤ int64Max)
    (fun _ _ => True) Holds where
  init := {
    placed := ⟨by simp [empty, MinHeapRef.empty], by simp [empty, MinHeapRef.empty],
      by simp [empty, MinHeapRef.empty]⟩
    ordered := by intro i _ hi; simp [empty, MinHeapRef.empty] at hi
    nodup := .nil
    members := by simp [empty, MinHeapRef.empty]
    keys := by simp
    due := by simp
    bound := by simp }
  inactive t h := by simpa using h.members t
  nodup h := h.nodup
  due h := h.due
  insert h ht h0 _ hc hins := (h.insert ht h0 hc hins).1
  remove h ht := h.remove ht
  gap h hf := h.nextGap hf
  advance {s c p dt} h hf _ hd := by
    have hgap := (h.nextGap hf).2.2
    refine ⟨h.placed, h.ordered, h.nodup, h.members, h.keys, fun x hx => ?_, h.bound⟩
    have hle : c + zTimeoutQNextGap s c ≤ x.2 := hgap x hx
    have hdt : (dt : ℤ) ≤ zTimeoutQNextGap s c := hd
    omega
  popNone {s c p} h hpop := by
    have hroot := h.root
    simp only [zTimeoutQPopDue] at hpop
    cases hr : zTimeoutQRoot s with
    | none =>
      simp only [hr] at hroot
      simp [hroot]
    | some t =>
      simp only [hr] at hroot hpop
      obtain ⟨-, e, hte, hmin⟩ := hroot
      have hk := h.keys _ hte
      have hb := h.bound _ hte
      have hd := h.due _ hte
      rw [int64_eq, hk] at hpop
      split at hpop
      · intro x hx
        have := hmin x hx
        omega
      · have hpeek : minHeapRefPeek s.heap = some t := hr
        simp [minHeapRefPop, hpeek] at hpop
  popSome {s c p t s'} h hpop := by
    have hroot := h.root
    simp only [zTimeoutQPopDue] at hpop
    cases hr : zTimeoutQRoot s with
    | none => simp [hr] at hpop
    | some u =>
      simp only [hr] at hroot hpop
      obtain ⟨-, e, hte, -⟩ := hroot
      have hk := h.keys _ hte
      have hb := h.bound _ hte
      have hd := h.due _ hte
      rw [int64_eq, hk] at hpop
      split at hpop
      · simp at hpop
      next hge =>
      have hpeek : minHeapRefPeek s.heap = some u := hr
      simp only [minHeapRefPop, hpeek] at hpop
      obtain ⟨rfl, rfl⟩ := hpop
      obtain rfl : e = c := by omega
      exact ⟨hte, trivial, h.remove (mem_map_of_mem hte)⟩

end Holds

end ZephyrRtos.Timeout.MinHeap
