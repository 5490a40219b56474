import Mathlib.Data.List.Sort

/-! A priority queue as a list of `(element, key)` pairs in insertion order, and
what it means for another list to present it sorted by key with equal keys still
in insertion order. -/

namespace ZephyrRtos.Lib

open List

variable {τ κ : Type*}

section DropKey

variable [DecidableEq τ]

def dropKey (t : τ) (p : List (τ × κ)) : List (τ × κ) :=
  p.filter (fun x => decide (x.1 ≠ t))

@[simp] theorem mem_dropKey {x : τ × κ} {p : List (τ × κ)} : x ∈ dropKey t p ↔ x ∈ p ∧ x.1 ≠ t := by
  simp [dropKey]

theorem dropKey_of_notMem {p : List (τ × κ)} (h : t ∉ p.map Prod.fst) : dropKey t p = p := by
  rw [dropKey, filter_eq_self]
  rintro x hx
  simp only [decide_eq_true_eq]
  rintro rfl
  exact h (mem_map_of_mem hx)

theorem dropKey_cons_self {p : List (τ × κ)} (h : (((t, e) :: p).map Prod.fst).Nodup) :
    dropKey t ((t, e) :: p) = p := by
  rw [map_cons, nodup_cons] at h
  have := dropKey_of_notMem h.1
  simpa [dropKey] using this

theorem map_fst_dropKey (t : τ) (p : List (τ × κ)) :
    (dropKey t p).map Prod.fst = (p.map Prod.fst).filter (fun u => decide (u ≠ t)) := by
  rw [filter_map]
  rfl

theorem mem_of_mem_dropKey {p : List (τ × κ)} (h : u ∈ (dropKey t p).map Prod.fst) :
    u ∈ p.map Prod.fst := by
  rw [map_fst_dropKey] at h
  exact mem_of_mem_filter h

theorem nodup_dropKey {p : List (τ × κ)} (h : (p.map Prod.fst).Nodup) :
    ((dropKey t p).map Prod.fst).Nodup := by
  rw [map_fst_dropKey]
  exact h.filter _

theorem fst_dropKey_erase {p : List (τ × κ)} (h : (p.map Prod.fst).Nodup) :
    (dropKey t p).map Prod.fst = (p.map Prod.fst).erase t := by
  rw [map_fst_dropKey, h.erase_eq_filter]
  refine filter_congr fun u _ => ?_
  rw [Bool.eq_iff_iff]
  simp

section

omit [DecidableEq τ]

theorem nodup_snoc (h : (p.map Prod.fst).Nodup) (ht : t ∉ p.map Prod.fst) :
    ((p ++ [(t, e)]).map Prod.fst).Nodup := by
  rw [map_append]
  exact nodup_append'.2 ⟨h, nodup_singleton t, by simpa using ht⟩

end

theorem filter_dropKey_of_not {p : List (τ × κ)} {f : τ × κ → Bool} (h : (p.map Prod.fst).Nodup)
    (ht : (t, e) ∈ p) (hf : ¬f (t, e) = true) :
    (dropKey t p).filter f = p.filter f := by
  rw [dropKey, filter_filter]
  refine filter_congr fun x hx => ?_
  by_cases hxt : x.1 = t
  · have : x = (t, e) := inj_on_of_nodup_map h hx ht hxt
    simp [this, hf]
  · simp [hxt]

end DropKey

def hasKey [DecidableEq κ] (e : κ) (x : τ × κ) : Bool := decide (x.2 = e)

@[simp] theorem hasKey_iff [DecidableEq κ] {x : τ × κ} : hasKey e x = true ↔ x.2 = e := by
  simp [hasKey]

variable [LinearOrder κ]

/-- `q` is the stable sort of `p`: ascending keys, and the entries of each key in
the order `p` has them. -/
structure StableSort (q p : List (τ × κ)) : Prop where
  sorted : q.Pairwise (fun x y => x.2 ≤ y.2)
  stable : ∀ e, q.filter (hasKey e) = p.filter (hasKey e)

/-- Insert after every entry whose key is not greater. -/
def insertStable (x : τ × κ) : List (τ × κ) → List (τ × κ)
  | [] => [x]
  | y :: ys => if x.2 < y.2 then x :: y :: ys else y :: insertStable x ys

@[simp] theorem mem_insertStable {x y : τ × κ} {q : List (τ × κ)} :
    y ∈ insertStable x q ↔ y = x ∨ y ∈ q := by
  induction q with
  | nil => simp [insertStable]
  | cons z zs ih =>
    simp only [insertStable]
    split
    · simp
    · simp; tauto

theorem insertStable_sorted {x : τ × κ} {q : List (τ × κ)}
    (h : q.Pairwise (fun a b => a.2 ≤ b.2)) :
    (insertStable x q).Pairwise (fun a b => a.2 ≤ b.2) := by
  induction q with
  | nil => simp [insertStable]
  | cons z zs ih =>
    rw [pairwise_cons] at h
    simp only [insertStable]
    split
    · next hlt =>
      refine pairwise_cons.2 ⟨fun a ha => ?_, pairwise_cons.2 h⟩
      rcases mem_cons.1 ha with rfl | ha
      · exact hlt.le
      · exact hlt.le.trans (h.1 a ha)
    · next hge =>
      refine pairwise_cons.2 ⟨fun a ha => ?_, ih h.2⟩
      rcases mem_insertStable.1 ha with rfl | ha
      · exact not_lt.1 hge
      · exact h.1 a ha

theorem filter_insertStable {x : τ × κ} {q : List (τ × κ)}
    (h : q.Pairwise (fun a b => a.2 ≤ b.2)) (e : κ) :
    (insertStable x q).filter (hasKey e) = q.filter (hasKey e) ++ [x].filter (hasKey e) := by
  induction q with
  | nil => simp [insertStable]
  | cons z zs ih =>
    rw [pairwise_cons] at h
    simp only [insertStable]
    split
    · next hlt =>
      -- Nothing at or behind `z` shares the key of `x`.
      by_cases hx : x.2 = e
      · have hnone : (z :: zs).filter (hasKey e) = [] := by
          rw [filter_eq_nil_iff]
          intro a ha
          rcases mem_cons.1 ha with rfl | ha
          · simpa [← hx] using hlt.ne'
          · simpa [← hx] using (hlt.trans_le (h.1 a ha)).ne'
        rw [filter_cons, hnone]
        simp [hx]
      · simp [hx]
    · simp only [filter_cons, ih h.2]
      split <;> simp

theorem StableSort.nil : StableSort ([] : List (τ × κ)) [] := ⟨.nil, fun _ => rfl⟩

theorem StableSort.insert {q p : List (τ × κ)} (h : StableSort q p) (x : τ × κ) :
    StableSort (insertStable x q) (p ++ [x]) := by
  refine ⟨insertStable_sorted h.sorted, fun e => ?_⟩
  rw [filter_insertStable h.sorted, h.stable, filter_append]

theorem StableSort.filter {q p : List (τ × κ)} (h : StableSort q p) (f : τ × κ → Bool) :
    StableSort (q.filter f) (p.filter f) := by
  refine ⟨h.sorted.filter f, fun e => ?_⟩
  rw [filter_comm, h.stable, filter_comm]

theorem StableSort.dropKey [DecidableEq τ] {q p : List (τ × κ)} (h : StableSort q p) (t : τ) :
    StableSort (dropKey t q) (dropKey t p) := h.filter _

theorem StableSort.mem_iff {q p : List (τ × κ)} (h : StableSort q p) (x : τ × κ) :
    x ∈ q ↔ x ∈ p := by
  have := congrArg (x ∈ ·) (h.stable x.2)
  simpa using this

theorem StableSort.perm [DecidableEq τ] {q p : List (τ × κ)} (h : StableSort q p) : q.Perm p := by
  rw [perm_iff_count]
  intro x
  have hq := count_filter (l := q) (p := hasKey x.2) (a := x) (by simp)
  have hp := count_filter (l := p) (p := hasKey x.2) (a := x) (by simp)
  rw [← hq, ← hp, h.stable]

theorem StableSort.nodup_iff [DecidableEq τ] {q p : List (τ × κ)} (h : StableSort q p) :
    (q.map Prod.fst).Nodup ↔ (p.map Prod.fst).Nodup :=
  (h.perm.map Prod.fst).nodup_iff

theorem StableSort.head {x : τ × κ} {q p : List (τ × κ)} (h : StableSort (x :: q) p) :
    (∀ y ∈ p, x.2 ≤ y.2) ∧ p.find? (hasKey x.2) = some x := by
  refine ⟨fun y hy => ?_, ?_⟩
  · rcases mem_cons.1 ((h.mem_iff y).2 hy) with rfl | hy
    · exact le_rfl
    · exact (pairwise_cons.1 h.sorted).1 y hy
  · rw [← head?_filter, ← h.stable]
    simp

end ZephyrRtos.Lib
