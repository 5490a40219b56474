import Mathlib.Data.Nat.Find
import Mathlib.Data.Nat.ModEq

namespace ZephyrRtos.Lib

variable {n h s t i j : ℕ} {P Q : ℕ → Prop}

def probe (n h t : ℕ) : ℕ := (h + t) % n

theorem probe_lt (hn : 0 < n) : probe n h t < n := Nat.mod_lt _ hn

theorem probe_inj (hs : s < n) (ht : t < n) (heq : probe n h s = probe n h t) : s = t := by
  have hmod : s ≡ t [MOD n] := .add_left_cancel' h heq
  exact Nat.ModEq.eq_of_lt_of_lt hmod hs ht

theorem exists_probe (hi : i < n) : ∃ t < n, probe n h t = i := by
  refine ⟨(i + (n - h % n)) % n, Nat.mod_lt _ (by omega), ?_⟩
  have hh : h % n < n := Nat.mod_lt _ (by omega)
  unfold probe
  rw [Nat.add_mod_mod, Nat.add_mod, Nat.add_mod i, ← Nat.add_mod i, ← Nat.mod_add_mod]
  have hsum : h % n + (i + (n - h % n)) = i + n := by omega
  rw [Nat.add_mod_mod, Nat.mod_mod, hsum, Nat.add_mod_right, Nat.mod_eq_of_lt hi]

/-- The `t`-th place is the first one of those probed that is in `P`. -/
structure FirstProbe (n h : ℕ) (P : ℕ → Prop) (t : ℕ) : Prop where
  lt : t < n
  holds : P (probe n h t)
  before : ∀ s < t, ¬ P (probe n h s)

theorem exists_firstProbe [DecidablePred P] (hi : i < n) (hP : P i) : ∃ t, FirstProbe n h P t := by
  obtain ⟨t, ht, rfl⟩ := exists_probe (h := h) hi
  have hex : ∃ t, P (probe n h t) := ⟨t, hP⟩
  exact ⟨.find hex, lt_of_le_of_lt (Nat.find_min' hex hP) ht, Nat.find_spec hex,
    fun s hs => Nat.find_min hex hs⟩

end ZephyrRtos.Lib
