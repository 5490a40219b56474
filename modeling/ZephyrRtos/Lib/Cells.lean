import Mathlib.Data.List.Basic

namespace ZephyrRtos.Lib

open List

def Cells (α : Type) := ℕ → α

namespace Cells

variable {α β : Type}

def slice (f : Cells α) (a n : ℕ) : List α := (List.range n).map fun i => f (a + i)

def put (f : Cells α) (a : ℕ) (xs : List α) : Cells α := fun b =>
  if a ≤ b then xs[b - a]?.getD (f b) else f b

def fill (f : Cells α) (a n : ℕ) (x : α) : Cells α := fun b => if a ≤ b ∧ b < a + n then x else f b

def SameOff (f g : Cells α) (lo hi : ℕ) : Prop := ∀ a, a < lo ∨ hi ≤ a → g a = f a

def SameOn (f g : Cells α) (lo hi : ℕ) : Prop := ∀ a, lo ≤ a → a < hi → g a = f a

variable {f g h : Cells α} {xs ys : List α} {x : α} {a b n k lo hi lo' hi' : ℕ}

@[simp] theorem length_slice : (slice f a n).length = n := by simp [slice]

@[simp] theorem slice_zero : slice f a 0 = [] := rfl

theorem getElem_slice (hi : i < (slice f a n).length) : (slice f a n)[i] = f (a + i) := by
  simp [slice]

theorem slice_add (f : Cells α) (a n k : ℕ) : slice f a (n + k) = slice f a n ++ slice f (a + n) k := by
  simp [slice, range_add, Nat.add_assoc]

theorem slice_congr (h : SameOn f g a (a + n)) : slice g a n = slice f a n :=
  map_congr_left fun i hi => h _ (by omega) (by have := mem_range.1 hi; omega)

theorem put_of_lt_or_le (h : b < a ∨ a + xs.length ≤ b) : put f a xs b = f b := by
  rw [put]
  split
  · rw [getElem?_eq_none (by omega)]
    rfl
  · rfl

theorem put_add (h : i < xs.length) : put f a xs (a + i) = xs[i] := by
  rw [put, if_pos (Nat.le_add_right ..), Nat.add_sub_cancel_left, getElem?_eq_getElem h]
  rfl

theorem put_cons_self : put f a (x :: xs) a = x := by
  rw [put, if_pos (Nat.le_refl _), Nat.sub_self]
  rfl

@[simp] theorem put_nil : put f a [] = f := by
  funext b
  exact put_of_lt_or_le (by simp only [length_nil]; omega)

theorem slice_put_self (f : Cells α) (a : ℕ) (xs : List α) : slice (put f a xs) a xs.length = xs := by
  refine ext_getElem (by simp) fun i h1 h2 => ?_
  rw [getElem_slice, put_add h2]

theorem put_append : put f a (xs ++ ys) = put (put f a xs) (a + xs.length) ys := by
  funext b
  by_cases hx : b < a ∨ a + xs.length ≤ b
  · by_cases hy : b < a + xs.length ∨ a + xs.length + ys.length ≤ b
    · rw [put_of_lt_or_le hy, put_of_lt_or_le hx, put_of_lt_or_le]
      rw [length_append]
      omega
    · obtain ⟨i, rfl⟩ := Nat.exists_eq_add_of_le (show a + xs.length ≤ b by omega)
      rw [put_add (by omega), Nat.add_assoc, put_add (by rw [length_append]; omega),
        getElem_append_right (by omega)]
      simp
  · obtain ⟨i, rfl⟩ := Nat.exists_eq_add_of_le (show a ≤ b by omega)
    rw [put_of_lt_or_le (show a + i < a + xs.length ∨ _ by omega),
      put_add (by rw [length_append]; omega), put_add (by omega), getElem_append_left]

theorem SameOff.widen (h : SameOff f g lo hi) (h1 : lo' ≤ lo) (h2 : hi ≤ hi') :
    SameOff f g lo' hi' := fun b hb => h b (by omega)

theorem SameOff.on (h : SameOff f g lo hi) (hd : hi' ≤ lo ∨ hi ≤ lo') : SameOn f g lo' hi' :=
  fun b _ _ => h b (by omega)

theorem SameOn.narrow (h : SameOn f g lo hi) (h1 : lo ≤ lo' := by omega)
    (h2 : hi' ≤ hi := by omega) : SameOn f g lo' hi' :=
  fun b h3 h4 => h b (by omega) (by omega)

theorem sameOff_put : SameOff f (put f a xs) a (a + xs.length) := fun _ hb => put_of_lt_or_le hb

theorem sameOff_fill : SameOff f (fill f a n x) a (a + n) := fun _ hb => if_neg (by omega)

theorem fill_of_mem (h1 : a ≤ b) (h2 : b < a + n) : fill f a n x b = x := if_pos ⟨h1, h2⟩

end Cells

end ZephyrRtos.Lib
