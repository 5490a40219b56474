import ZephyrRtos.Lib.MachineInt
import ZephyrRtos.Lib.StableQueue

/-! Sequences that store each element's key as a delta to its predecessor.  The
deltas are a field of the elements, so an operation may change the deltas of elements
other than the one it is about. -/

namespace ZephyrRtos.Lib

open List Function

variable {τ : Type} [DecidableEq τ]

/-- Walk past the elements whose delta the remaining `d` covers, then take `d` off
the element in front of which `t` lands. -/
def deltaInsert (t : τ) : List τ → (τ → ℤ) → ℤ → List τ × (τ → ℤ)
  | [], δ, d => ([t], update δ t d)
  | u :: us, δ, d =>
    if d < δ u then
      (t :: u :: us, update (update δ u (int64 (δ u - d))) t d)
    else
      let r := deltaInsert t us δ (int64 (d - δ u))
      (u :: r.1, r.2)

def nextOf (t : τ) : List τ → Option τ
  | [] => none
  | u :: us => if u = t then us.head? else nextOf t us

def deltaAbsorb (t : τ) (l : List τ) (δ : τ → ℤ) : τ → ℤ :=
  match nextOf t l with
  | some n => update δ n (int64 (δ n + δ t))
  | none => δ

def deltaSum (δ : τ → ℤ) (t : τ) : ℤ → List τ → ℤ
  | acc, [] => acc
  | acc, u :: us =>
    let acc' := int64 (acc + δ u)
    if u = t then acc' else deltaSum δ t acc' us

/-- The keys a delta sequence stands for, counted from `c`. -/
def deltaKeys (δ : τ → ℤ) : ℤ → List τ → List (τ × ℤ)
  | _, [] => []
  | c, u :: us => (u, c + δ u) :: deltaKeys δ (c + δ u) us

section

omit [DecidableEq τ]

@[simp] theorem map_fst_deltaKeys (δ : τ → ℤ) (c : ℤ) (l : List τ) :
    (deltaKeys δ c l).map Prod.fst = l := by
  induction l generalizing c with
  | nil => rfl
  | cons u us ih => simp [deltaKeys, ih]

theorem deltaKeys_congr (h : ∀ u ∈ l, δ u = δ' u) : deltaKeys δ c l = deltaKeys δ' c l := by
  induction l generalizing c with
  | nil => rfl
  | cons u us ih =>
    rw [forall_mem_cons] at h
    simp [deltaKeys, h.1, ih h.2]

theorem le_of_mem_deltaKeys (h : ∀ u ∈ l, 0 ≤ δ u) : ∀ x ∈ deltaKeys δ c l, c ≤ x.2 := by
  induction l generalizing c with
  | nil => simp [deltaKeys]
  | cons u us ih =>
    rw [forall_mem_cons] at h
    intro x hx
    rcases mem_cons.1 hx with rfl | hx
    · simpa using h.1
    · have := ih h.2 x hx
      omega

theorem delta_le_of_mem (h : ∀ u ∈ l, 0 ≤ δ u) (ht : (t, e) ∈ deltaKeys δ c l) : δ t ≤ e - c := by
  induction l generalizing c with
  | nil => simp [deltaKeys] at ht
  | cons u us ih =>
    rw [forall_mem_cons] at h
    rcases mem_cons.1 ht with heq | ht
    · obtain ⟨rfl, rfl⟩ := Prod.mk.inj heq
      omega
    · have := ih h.2 ht
      omega

theorem deltaKeys_sublist_le (hl : l'.Sublist l) (h : ∀ u ∈ l, 0 ≤ δ u) (hc : c' ≤ c) :
    ∀ x ∈ deltaKeys δ c' l', ∃ y ∈ deltaKeys δ c l, x.2 ≤ y.2 := by
  induction hl generalizing c c' with
  | slnil => simp [deltaKeys]
  | cons u _ ih =>
    rw [forall_mem_cons] at h
    intro x hx
    obtain ⟨y, hy, hle⟩ := ih h.2 (c := c + δ u) (by omega) x hx
    exact ⟨y, mem_cons_of_mem _ hy, hle⟩
  | cons_cons u _ ih =>
    rw [forall_mem_cons] at h
    intro x hx
    rcases mem_cons.1 hx with rfl | hx
    · exact ⟨(u, c + δ u), mem_cons_self, by simp only; omega⟩
    · obtain ⟨y, hy, hle⟩ := ih h.2 (c := c + δ u) (by omega) x hx
      exact ⟨y, mem_cons_of_mem _ hy, hle⟩

end

section Insert

variable {t : τ} {l : List τ} {δ : τ → ℤ} {d c : ℤ}

theorem deltaInsert_perm (t : τ) (l : List τ) (δ : τ → ℤ) (d : ℤ) :
    (deltaInsert t l δ d).1.Perm (t :: l) := by
  induction l generalizing d with
  | nil => rfl
  | cons u us ih =>
    simp only [deltaInsert]
    split
    · rfl
    · exact ((ih _).cons u).trans (.swap _ _ _)

theorem deltaInsert_of_notMem (ht : u ≠ t) (hu : u ∉ l) : (deltaInsert t l δ d).2 u = δ u := by
  induction l generalizing d with
  | nil => simp [deltaInsert, ht]
  | cons v vs ih =>
    rw [mem_cons, not_or] at hu
    simp only [deltaInsert]
    split
    · simp [ht, hu.1]
    · exact ih hu.2

section

variable (h : ∀ u ∈ l, 0 ≤ δ u ∧ δ u ≤ int64Max) (hn : l.Nodup) (ht : t ∉ l) (hd : 0 ≤ d)
  (hm : d ≤ int64Max)
include h hn ht hd hm

theorem deltaInsert_nonneg : ∀ u ∈ t :: l, 0 ≤ (deltaInsert t l δ d).2 u := by
  induction l generalizing d with
  | nil => simpa [deltaInsert] using hd
  | cons v vs ih =>
    rw [forall_mem_cons] at h
    rw [nodup_cons] at hn
    rw [mem_cons, not_or] at ht
    obtain ⟨⟨hv0, hvm⟩, hvs⟩ := h
    simp only [deltaInsert]
    split
    · rw [int64_eq]
      intro u hu
      by_cases hut : u = t
      · simpa [hut] using hd
      · by_cases huv : u = v
        · simp [huv, Ne.symm ht.1]; omega
        · have hmem : u ∈ vs := by simpa [hut, huv] using hu
          simpa [hut, huv] using (hvs u hmem).1
    · rw [int64_eq]
      have hrec := ih (d := d - δ v) hvs hn.2 ht.2 (by omega) (by omega)
      intro u hu
      by_cases huv : u = v
      · rwa [huv, deltaInsert_of_notMem (.symm ht.1) hn.1]
      · refine hrec u ?_
        simp only [mem_cons] at hu ⊢
        tauto

theorem deltaKeys_insert :
    deltaKeys (deltaInsert t l δ d).2 c (deltaInsert t l δ d).1 =
      insertStable (t, c + d) (deltaKeys δ c l) := by
  induction l generalizing d c with
  | nil => simp [deltaInsert, deltaKeys, insertStable]
  | cons v vs ih =>
    rw [forall_mem_cons] at h
    rw [nodup_cons] at hn
    rw [mem_cons, not_or] at ht
    obtain ⟨⟨hv0, hvm⟩, hvs⟩ := h
    simp only [deltaInsert, deltaKeys, insertStable]
    split
    · rw [if_pos (by omega), int64_eq]
      have hrest : deltaKeys (update (update δ v (δ v - d)) t d) (c + δ v) vs =
          deltaKeys δ (c + δ v) vs := by
        refine deltaKeys_congr fun u hu => ?_
        have hut : u ≠ t := fun he => ht.2 (he ▸ hu)
        have huv : u ≠ v := fun he => hn.1 (he ▸ hu)
        simp [hut, huv]
      simp only [deltaKeys, update_self, update_of_ne (.symm ht.1)]
      rw [show c + d + (δ v - d) = c + δ v by omega, hrest]
    · rw [if_neg (by omega), int64_eq]
      simp only [deltaKeys]
      rw [deltaInsert_of_notMem (.symm ht.1) hn.1,
        ih hvs hn.2 ht.2 (by omega) (by omega), show c + δ v + (d - δ v) = c + d by omega]

end

end Insert

section Remove

variable {t : τ} {l : List τ} {δ : τ → ℤ} {c : ℤ}

theorem nextOf_mem (h : nextOf t l = some n) : n ∈ l := by
  induction l with
  | nil => simp [nextOf] at h
  | cons u us ih =>
    simp only [nextOf] at h
    split at h
    · exact mem_cons_of_mem _ (mem_of_mem_head? h)
    · exact mem_cons_of_mem _ (ih h)

theorem deltaAbsorb_of_notMem (hu : u ∉ l) : deltaAbsorb t l δ u = δ u := by
  cases hn : nextOf t l with
  | none => simp [deltaAbsorb, hn]
  | some n =>
    have : u ≠ n := by rintro rfl; exact hu (nextOf_mem hn)
    simp [deltaAbsorb, hn, this]

theorem deltaAbsorb_cons_of_ne (h : u ≠ t) : deltaAbsorb t (u :: us) δ = deltaAbsorb t us δ := by
  simp [deltaAbsorb, nextOf, h]

theorem deltaAbsorb_cons_self :
    deltaAbsorb t (t :: us) δ =
      match us.head? with
      | some n => update δ n (int64 (δ n + δ t))
      | none => δ := by
  simp [deltaAbsorb, nextOf]

section

variable (h : ∀ u ∈ l, 0 ≤ δ u) (hn : l.Nodup) (hm : ∀ x ∈ deltaKeys δ c l, x.2 - c ≤ int64Max)
include h hn hm

theorem deltaKeys_remove :
    deltaKeys (deltaAbsorb t l δ) c (l.erase t) = dropKey t (deltaKeys δ c l) := by
  induction l generalizing c with
  | nil => rfl
  | cons v vs ih =>
    rw [forall_mem_cons] at h
    rw [nodup_cons] at hn
    by_cases hv : v = t
    · subst hv
      have hdrop : dropKey v (deltaKeys δ c (v :: vs)) = deltaKeys δ (c + δ v) vs := by
        exact dropKey_cons_self (by simpa using hn)
      rw [erase_cons_head, hdrop, deltaAbsorb_cons_self]
      cases vs with
      | nil => rfl
      | cons n ns =>
        have hlast := hm (n, c + δ v + δ n) (by simp [deltaKeys])
        have hn0 := h.2 n (by simp)
        have hnn : n ∉ ns := (nodup_cons.1 hn.2).1
        simp only [head?_cons, deltaKeys, update_self]
        rw [int64_eq, show c + (δ n + δ v) = c + δ v + δ n by omega]
        congr 1
        refine deltaKeys_congr fun u hu => update_of_ne ?_ _ _
        rintro rfl
        exact hnn hu
    · rw [erase_cons_tail (by simpa using hv), deltaAbsorb_cons_of_ne hv]
      have htail : ∀ x ∈ deltaKeys δ (c + δ v) vs, x.2 - (c + δ v) ≤ int64Max := by
        intro x hx
        have := hm x (by simp [deltaKeys, hx])
        omega
      have hrec := ih h.2 hn.2 htail
      simp only [deltaKeys, deltaAbsorb_of_notMem hn.1, hrec]
      simp [dropKey, hv]

theorem deltaAbsorb_nonneg : ∀ u ∈ l, 0 ≤ deltaAbsorb t l δ u := by
  induction l generalizing c with
  | nil => simp
  | cons v vs ih =>
    rw [forall_mem_cons] at h
    rw [nodup_cons] at hn
    by_cases hv : v = t
    · subst hv
      rw [deltaAbsorb_cons_self]
      cases vs with
      | nil => simpa using h.1
      | cons n ns =>
        have hlast := hm (n, c + δ v + δ n) (by simp [deltaKeys])
        have hn0 := h.2 n (by simp)
        intro u hu
        simp only [head?_cons]
        by_cases hun : u = n
        · rw [hun, update_self, int64_eq]
          omega
        · rw [update_of_ne hun]
          rcases mem_cons.1 hu with rfl | hu
          · exact h.1
          · exact h.2 u hu
    · rw [deltaAbsorb_cons_of_ne hv]
      have hrec := ih (c := c + δ v) h.2 hn.2 (by
        intro x hx
        have := hm x (by simp [deltaKeys, hx])
        omega)
      intro u hu
      rcases mem_cons.1 hu with rfl | hu
      · rw [deltaAbsorb_of_notMem hn.1]
        exact h.1
      · exact hrec u hu

end

end Remove

section Erase

variable {t : τ} {l : List τ} {δ : τ → ℤ} {c : ℤ}

theorem deltaKeys_erase_subset (hn : l.Nodup) (h : δ t = 0 ∨ l.getLast? = some t) :
    ∀ x ∈ deltaKeys δ c (l.erase t), x ∈ deltaKeys δ c l := by
  induction l generalizing c with
  | nil => simp
  | cons v vs ih =>
    rw [nodup_cons] at hn
    intro x hx
    by_cases hv : v = t
    · subst hv
      rw [erase_cons_head] at hx
      rcases h with h0 | hlast
      · refine mem_cons_of_mem _ ?_
        rwa [h0, add_zero]
      · cases vs with
        | nil => simp [deltaKeys] at hx
        | cons w ws =>
          rw [getLast?_cons_cons] at hlast
          exact absurd (mem_of_getLast? hlast) hn.1
    · rw [erase_cons_tail (by simpa using hv)] at hx
      rcases mem_cons.1 hx with rfl | hx
      · exact mem_cons_self
      · refine mem_cons_of_mem _ (ih hn.2 (h.imp_right fun hlast => ?_) x hx)
        cases vs with
        | nil => exact absurd (by simpa using hlast) hv
        | cons w ws => rwa [getLast?_cons_cons] at hlast

theorem exists_deltaKeys_shift (hn : l.Nodup) (ht : t ∈ l) (hl : l.getLast? ≠ some t) :
    ∃ u e, u ≠ t ∧ (u, e) ∈ deltaKeys δ c l ∧ (u, e - δ t) ∈ deltaKeys δ c (l.erase t) := by
  induction l generalizing c with
  | nil => simp at ht
  | cons v vs ih =>
    rw [nodup_cons] at hn
    cases vs with
    | nil =>
      obtain rfl := mem_singleton.1 ht
      exact absurd rfl hl
    | cons w ws =>
      by_cases hv : v = t
      · subst hv
        refine ⟨w, c + δ v + δ w, ?_, by simp [deltaKeys], ?_⟩
        · rintro rfl
          exact hn.1 mem_cons_self
        · rw [erase_cons_head, show c + δ v + δ w - δ v = c + δ w by omega]
          exact mem_cons_self
      · have htw := (mem_cons.1 ht).resolve_left (Ne.symm hv)
        obtain ⟨u, e, hu, he, he'⟩ := ih hn.2 htw hl
        refine ⟨u, e, hu, mem_cons_of_mem _ he, ?_⟩
        rw [erase_cons_tail (by simpa using hv)]
        exact mem_cons_of_mem _ he'

end Erase

section Sum

variable {t u : τ} {l : List τ} {δ δ' : τ → ℤ} {c acc : ℤ}

theorem deltaSum_congr (h : ∀ v ∈ l, δ v = δ' v) : deltaSum δ t acc l = deltaSum δ' t acc l := by
  induction l generalizing acc with
  | nil => rfl
  | cons v vs ih =>
    rw [forall_mem_cons] at h
    simp only [deltaSum, h.1]
    split
    · rfl
    · exact ih h.2

theorem deltaSum_eq (h : ∀ v ∈ l, 0 ≤ δ v) (h0 : 0 ≤ acc)
    (hm : ∀ x ∈ deltaKeys δ (c + acc) l, x.2 - c ≤ int64Max) (hn : l.Nodup)
    (ht : (t, e) ∈ deltaKeys δ (c + acc) l) : deltaSum δ t acc l = e - c := by
  induction l generalizing acc with
  | nil => simp [deltaKeys] at ht
  | cons v vs ih =>
    rw [forall_mem_cons] at h
    rw [nodup_cons] at hn
    have hv := hm (v, c + acc + δ v) (by simp [deltaKeys])
    have hw : int64 (acc + δ v) = acc + δ v := int64_eq
    simp only [deltaSum, hw]
    by_cases hvt : v = t
    · subst hvt
      rw [if_pos rfl]
      rcases mem_cons.1 ht with heq | ht
      · have := (Prod.mk.inj heq).2
        omega
      · exact absurd (by simpa using mem_map_of_mem (f := Prod.fst) ht) hn.1
    rw [if_neg hvt]
    refine ih h.2 (by omega) ?_ hn.2 ?_
    · intro x hx
      exact hm x (by simp only [deltaKeys]; right; rwa [add_assoc])
    · rcases mem_cons.1 ht with heq | ht
      · exact absurd (Prod.mk.inj heq).1.symm hvt
      · rwa [← add_assoc]

theorem deltaSum_remove (hn : l.Nodup) (hu : u ∈ l) (htu : u ≠ t) :
    deltaSum (deltaAbsorb t l δ) u acc (l.erase t) = deltaSum δ u acc l := by
  induction l generalizing acc with
  | nil => simp at hu
  | cons v vs ih =>
    rw [nodup_cons] at hn
    by_cases hv : v = t
    · subst hv
      rw [erase_cons_head, deltaAbsorb_cons_self]
      have hu : u ∈ vs := (mem_cons.1 hu).resolve_left htu
      cases vs with
      | nil => simp at hu
      | cons n ns =>
        have hnn : n ∉ ns := (nodup_cons.1 hn.2).1
        simp only [head?_cons, deltaSum, update_self, int64_add_int64,
          int64_int64_add, if_neg htu.symm]
        rw [show acc + (δ n + δ v) = acc + δ v + δ n by omega]
        split
        · rfl
        · refine deltaSum_congr fun w hw => update_of_ne ?_ _ _
          rintro rfl
          exact hnn hw
    · rw [erase_cons_tail (by simpa using hv), deltaAbsorb_cons_of_ne hv]
      simp only [deltaSum, deltaAbsorb_of_notMem hn.1]
      split
      · rfl
      · next hvu => exact ih hn.2 ((mem_cons.1 hu).resolve_left (Ne.symm hvu))

end Sum

end ZephyrRtos.Lib
