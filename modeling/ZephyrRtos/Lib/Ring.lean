import Mathlib.Data.List.Basic
import Mathlib.Data.Nat.ModEq

namespace ZephyrRtos.Lib

variable {α : Type} {f g : ℕ → α} {cap r n i j : ℕ} {a : α}

def ring (f : ℕ → α) (cap r n : ℕ) : List α :=
  (List.range n).map fun i => f ((r + i) % cap)

namespace Ring

@[simp] theorem ring_zero : ring f cap r 0 = [] := rfl

@[simp] theorem length_ring : (ring f cap r n).length = n := by simp [ring]

theorem ring_mod : ring f cap (r % cap) n = ring f cap r n := by
  simp [ring]

theorem slot_inj (hi : i < cap) (hj : j < cap) (h : (r + i) % cap = (r + j) % cap) : i = j :=
  Nat.ModEq.eq_of_lt_of_lt (.add_left_cancel' r h) hi hj

theorem ring_congr (h : ∀ i < n, g ((r + i) % cap) = f ((r + i) % cap)) :
    ring g cap r n = ring f cap r n :=
  List.map_congr_left fun i hi => h i (List.mem_range.1 hi)

theorem ring_add (m : ℕ) : ring f cap r (n + m) = ring f cap r n ++ ring f cap (r + n) m := by
  simp [ring, List.range_add, add_assoc]

theorem ring_cons : ring f cap r (n + 1) = f (r % cap) :: ring f cap (r + 1) n := by
  rw [add_comm n, ring_add]
  rfl

theorem ring_pushBack (hn : n < cap) (ha : g ((r + n) % cap) = a)
    (hg : ∀ j < cap, j ≠ (r + n) % cap → g j = f j) :
    ring g cap r (n + 1) = ring f cap r n ++ [a] := by
  rw [ring_add, ← ha]
  congr 1
  exact ring_congr fun i hi => hg _ (Nat.mod_lt _ (Nat.zero_lt_of_lt hn)) fun h =>
    hi.ne (slot_inj (hi.trans hn) hn h)

theorem ring_pushFront (hn : n < cap) (ha : g (r % cap) = a)
    (hg : ∀ j < cap, j ≠ r % cap → g j = f j) :
    ring g cap r (n + 1) = a :: ring f cap (r + 1) n := by
  rw [ring_cons]
  congr 1
  refine ring_congr fun i hi => hg _ (Nat.mod_lt _ (Nat.zero_lt_of_lt hn)) fun h => ?_
  rw [add_assoc] at h
  have := slot_inj (by omega) (Nat.zero_lt_of_lt hn) (h.trans (by rw [add_zero]))
  omega

end Ring

end ZephyrRtos.Lib
