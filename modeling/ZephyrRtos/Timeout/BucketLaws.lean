import ZephyrRtos.Timeout.Bucket

namespace ZephyrRtos.Timeout.Bucket

open Lib

variable {τ : Type} [DecidableEq τ] {W : Window} {cfg : Config}

def fitsCounter (c : ℕ) (d : ℤ) : Prop := (c : ℤ) + d < 2 ^ 64

instance (c : ℕ) (d : ℤ) : Decidable (fitsCounter c d) :=
  inferInstanceAs (Decidable ((c : ℤ) + d < 2 ^ 64))

section Holds

variable {s : State W τ} {c : ℕ} {p : List (τ × ℤ)}

section

omit [DecidableEq τ]

theorem Holds.bucket_behind (h : Holds s c p) (hi : i < W.offset c) : s.bucket i = [] := by
  have hend := h.lt_end
  rw [h.offset_now] at hi
  rw [List.eq_nil_iff_forall_not_mem]
  intro t ht
  have := h.due _ ((h.buckets.mem_bucket (by omega)).1 ht)
  omega

theorem Holds.bucket_drained (h : Holds s c p) (hf : ∀ x ∈ p, (c : ℤ) < x.2) (hi : i ≤ W.offset c) :
    s.bucket i = [] := by
  have hbase := h.base_le
  have hend := h.lt_end
  rw [h.offset_now] at hi
  rw [List.eq_nil_iff_forall_not_mem]
  intro t ht
  have := hf _ ((h.buckets.mem_bucket (by omega)).1 ht)
  omega

theorem Holds.remainder (h : Holds s c p) (ht : (t, e) ∈ p) : zTimeoutQRemainder s c t = e - c := by
  have hdue := h.due _ ht
  have hbound := h.bound _ ht
  have hfit : int64 (e - c) = e - c := int64_eq hbound
  rcases h.cases ht with ⟨i, hi, rfl, hb⟩ | ⟨hout, hov⟩
  · have hidx := h.buckets.uint64_index hi hb
    have hoff : W.offset (uint64 (s.dticks t - s.cursorBase)) = i := by
      obtain ⟨n, hn⟩ := Nat.dvd_of_mod_eq_zero h.aligned
      have hoff := W.offset_uint64 (s.dticks t - s.cursorBase)
      rw [h.buckets.index i hi t hb, hn, Nat.cast_mul, Int.sub_mul_emod_self_left,
        Int.emod_eq_of_lt (by omega) (by omega)] at hoff
      rw [h.buckets.index i hi t hb, hn]
      exact_mod_cast hoff
    rw [zTimeoutQRemainder, hidx, if_pos hi, hoff, hfit]
  · obtain ⟨u, -, heq⟩ := List.mem_map.1 hov
    obtain ⟨rfl, rfl⟩ := Prod.mk.inj heq
    rw [zTimeoutQRemainder, if_neg (by omega), hfit]

end

end Holds

def window8 : Window := ⟨3, by decide, by decide⟩

theorem stalls_int64Min (W : Window) (c : ℕ) : Stalls (drainOps W τ) c
    (fun s => earliestGap s c = int64Min ∧ s.bucket (W.offset c) = [] ∧
      c < s.cursorBase + W.lists) where
  gap {s} h := by
    simp only [zTimeoutQNextGap, h.1]
    decide
  advance {s} h := by simpa [zTimeoutQAdvance, h.2.2] using h
  popDue {s} h := by simp [zTimeoutQPopDue, h.2.1]

end ZephyrRtos.Timeout.Bucket
