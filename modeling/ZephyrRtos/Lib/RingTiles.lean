import Mathlib.Algebra.BigOperators.Group.List.Basic
import ZephyrRtos.Lib.Ring

/-! Items one behind the other in a ring of `N` cells. Positions run on and are taken modulo `N`. -/

namespace ZephyrRtos.Lib.RingTiles

open List

variable {ι : Type} (len : ι → ℕ) (N : ℕ)

def total (is : List ι) : ℕ := (is.map len).sum

/-- The cell where each item starts, when the first one is at `q`. -/
def placed (q : ℕ) : List ι → List (ℕ × ι)
  | [] => []
  | i :: is => (q % N, i) :: placed (q + len i) is

/-- No item is empty or goes over the end of the ring, and each meets `P` at its cell. -/
def Tiled (P : ℕ → ι → Prop) (q : ℕ) (is : List ι) : Prop :=
  ∀ e ∈ placed len N q is, 0 < len e.2 ∧ e.1 + len e.2 ≤ N ∧ P e.1 e.2

variable {len N} {P P' : ℕ → ι → Prop} {q t u lo hi : ℕ} {i i' : ι} {is xs ys : List ι} {e : ℕ × ι}

@[simp] theorem total_nil : total len [] = 0 := rfl

@[simp] theorem total_cons : total len (i :: is) = len i + total len is := by simp [total]

@[simp] theorem total_append : total len (xs ++ ys) = total len xs + total len ys := by
  simp [total]

@[simp] theorem placed_cons :
    placed len N q (i :: is) = (q % N, i) :: placed len N (q + len i) is := rfl

@[simp] theorem placed_append :
    placed len N q (xs ++ ys) = placed len N q xs ++ placed len N (q + total len xs) ys := by
  induction xs generalizing q with
  | nil => rfl
  | cons i xs ih => simp [ih, add_assoc]

theorem mem_of_mem_placed (h : e ∈ placed len N q is) : e.2 ∈ is := by
  induction is generalizing q with
  | nil => cases h
  | cons i is ih =>
    obtain rfl | h := mem_cons.1 h
    · exact mem_cons_self
    · exact mem_cons_of_mem _ (ih h)

theorem exists_of_mem_placed (h : e ∈ placed len N q is) :
    ∃ xs ys, is = xs ++ e.2 :: ys ∧ e.1 = (q + total len xs) % N := by
  induction is generalizing q with
  | nil => cases h
  | cons i is ih =>
    obtain rfl | h := mem_cons.1 h
    · exact ⟨[], is, rfl, rfl⟩
    · obtain ⟨xs, ys, rfl, he⟩ := ih h
      exact ⟨i :: xs, ys, rfl, by rw [he, total_cons, add_assoc]⟩

theorem exists_mem_placed (q : ℕ) (h : i ∈ is) : ∃ ptr, (ptr, i) ∈ placed len N q is := by
  obtain ⟨-, -, rfl⟩ := append_of_mem h
  exact ⟨_, by rw [placed_append]; exact mem_append_right _ mem_cons_self⟩

theorem add_mod_of_fits (h : q % N + j < N) : (q + j) % N = q % N + j := by
  rw [← Nat.mod_add_mod, Nat.mod_eq_of_lt h]

theorem mod_ne_mod (hq : q ≤ t) (ht : t < q + N) (hq' : q ≤ u) (hu : u < q + N) (hne : t ≠ u) :
    t % N ≠ u % N := by
  obtain ⟨i, rfl⟩ := Nat.exists_eq_add_of_le hq
  obtain ⟨j, rfl⟩ := Nat.exists_eq_add_of_le hq'
  intro h
  have := Ring.slot_inj (by omega) (by omega) h
  omega

theorem mod_eq_mod_iff (hle : q ≤ t) (ht : t ≤ q + N) (hne : q ≠ t) :
    t % N = q % N ↔ t = q + N := by
  constructor
  · intro h
    by_contra hlt
    exact mod_ne_mod hle (by omega) le_rfl (by omega) hne.symm h
  · rintro rfl
    exact Nat.add_mod_right ..

theorem Tiled.append : Tiled len N P q (xs ++ ys) ↔
    Tiled len N P q xs ∧ Tiled len N P (q + total len xs) ys := by
  rw [Tiled, placed_append]
  exact forall_mem_append

theorem Tiled.cons : Tiled len N P q (i :: is) ↔
    (0 < len i ∧ q % N + len i ≤ N ∧ P (q % N) i) ∧ Tiled len N P (q + len i) is := by
  exact forall_mem_cons

theorem Tiled.nil : Tiled len N P q [] := nofun

theorem Tiled.total_pos (h : Tiled len N P q is) (hne : is ≠ []) : 0 < total len is := by
  cases is with
  | nil => exact absurd rfl hne
  | cons i is =>
    rw [total_cons]
    have := (cons.1 h).1.1
    omega

theorem position_of_mem (h : e ∈ placed len N q is) :
    ∃ t, q ≤ t ∧ t + len e.2 ≤ q + total len is ∧ e.1 = t % N := by
  obtain ⟨xs, -, rfl, he⟩ := exists_of_mem_placed h
  refine ⟨q + total len xs, Nat.le_add_right .., ?_, he⟩
  rw [total_append, total_cons]
  omega

theorem Tiled.cell_ne (h : Tiled len N P q is) (he : e ∈ placed len N q is)
    (hout : q + total len is ≤ lo ∧ hi ≤ q + N ∨ hi ≤ q ∧ q + total len is ≤ lo + N) (hx : e.1 ≤ x)
    (hx' : x < e.1 + len e.2) (hlo : lo ≤ u) (hhi : u < hi) : x ≠ u % N := by
  obtain ⟨-, hfit, -⟩ := h e he
  obtain ⟨t, hq, ht, hcell⟩ := position_of_mem he
  obtain ⟨j, rfl⟩ := Nat.exists_eq_add_of_le hx
  rw [hcell] at hfit hx' ⊢
  rw [← add_mod_of_fits (by omega)]
  obtain hout | hout := hout
  · exact mod_ne_mod (q := q) (by omega) (by omega) (by omega) (by omega) (by omega)
  · exact mod_ne_mod (q := lo) (by omega) (by omega) (by omega) (by omega) (by omega)

theorem Tiled.start_ne (h : Tiled len N P q is) (he : e ∈ placed len N q is)
    (hlo : q + total len is ≤ u) (hhi : u < q + N) : e.1 ≠ u % N := by
  have hpos := (h e he).1
  exact h.cell_ne he (.inl ⟨hlo, hhi⟩) le_rfl (by omega) le_rfl (Nat.lt_succ_self u)

theorem Tiled.nodup (h : Tiled len N P q is) (hle : total len is ≤ N) :
    ((placed len N q is).map Prod.fst).Nodup := by
  induction is generalizing q with
  | nil => exact nodup_nil
  | cons i is ih =>
    obtain ⟨⟨hi, -⟩, his⟩ := Tiled.cons.1 h
    rw [total_cons] at hle
    rw [placed_cons, map_cons, nodup_cons]
    refine ⟨fun hmem => ?_, ih his (by omega)⟩
    obtain ⟨e, he, heq⟩ := mem_map.1 hmem
    exact his.start_ne he (u := q + N) (by omega) (by omega) (by rw [heq, Nat.add_mod_right])

end ZephyrRtos.Lib.RingTiles
