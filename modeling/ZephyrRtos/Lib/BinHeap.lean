import Mathlib.Algebra.Order.Group.Nat

/-! The sifts of an implicit binary heap, over any store that can compare and swap two
of its positions. -/

namespace ZephyrRtos.Lib

def heapParent (i : ℕ) : ℕ := (i - 1) / 2

section Defs

variable {σ : Type*}

def siftUp (lt : σ → ℕ → ℕ → Bool) (swap : σ → ℕ → ℕ → σ) : ℕ → σ → ℕ → σ
  | 0, s, _ => s
  | fuel + 1, s, i =>
    if 0 < i ∧ lt s i (heapParent i) = true then
      siftUp lt swap fuel (swap s i (heapParent i)) (heapParent i)
    else s

/-- `i` itself, or its least child if that is below it. -/
def smallestOf (lt : σ → ℕ → ℕ → Bool) (s : σ) (size i : ℕ) : ℕ :=
  let left := 2 * i + 1
  let right := left + 1
  if left < size then
    let smallest := if lt s left i then left else i
    if right < size ∧ lt s right smallest = true then right else smallest
  else i

def siftDown (lt : σ → ℕ → ℕ → Bool) (swap : σ → ℕ → ℕ → σ) (size : ℕ) : ℕ → σ → ℕ → σ
  | 0, s, _ => s
  | fuel + 1, s, i =>
    if smallestOf lt s size i = i then s
    else siftDown lt swap size fuel (swap s i (smallestOf lt s size i)) (smallestOf lt s size i)

end Defs

section Order

variable {κ : Type*} [LinearOrder κ]

def HeapOrdered (k : ℕ → κ) (n : ℕ) : Prop := ∀ i, 0 < i → i < n → k (heapParent i) ≤ k i

/-- Ordered but for position `i`, which may be below its parent. -/
structure UpOrder (k : ℕ → κ) (n i : ℕ) : Prop where
  rest : ∀ j, 0 < j → j < n → j ≠ i → k (heapParent j) ≤ k j
  skip : 0 < i → ∀ j, 0 < j → j < n → heapParent j = i → k (heapParent i) ≤ k j

/-- Ordered but for position `i`, which may be above its children. -/
structure DownOrder (k : ℕ → κ) (n i : ℕ) : Prop where
  rest : ∀ j, 0 < j → j < n → heapParent j ≠ i → k (heapParent j) ≤ k j
  skip : 0 < i → ∀ j, 0 < j → j < n → heapParent j = i → k (heapParent i) ≤ k j

def swapped (k : ℕ → κ) (a b : ℕ) (i : ℕ) : κ := if i = b then k a else if i = a then k b else k i

theorem heapParent_lt (h : 0 < i) : heapParent i < i := by
  simp only [heapParent]
  omega

theorem HeapOrdered.root_le {k : ℕ → κ} (h : HeapOrdered k n) (hi : i < n) : k 0 ≤ k i := by
  induction i using Nat.strong_induction_on with
  | _ i ih =>
    rcases eq_zero_or_pos i with rfl | hpos
    · exact le_rfl
    · have hlt := heapParent_lt hpos
      exact (ih _ hlt (by omega)).trans (h i hpos hi)

theorem UpOrder.ordered {k : ℕ → κ} (h : UpOrder k n i) (hi : 0 < i → k (heapParent i) ≤ k i) :
    HeapOrdered k n := by
  intro j hj hjn
  by_cases hji : j = i
  · subst hji
    exact hi hj
  · exact h.rest j hj hjn hji

theorem UpOrder.swap {k : ℕ → κ} (h : UpOrder k n i) (hi : 0 < i) (hn : i < n)
    (hlt : k i < k (heapParent i)) : UpOrder (swapped k i (heapParent i)) n (heapParent i) := by
  have hpi := heapParent_lt hi
  constructor
  · intro j hj hjn hjp
    by_cases hji : j = i
    · subst hji
      simp only [swapped, if_neg hpi.ne']
      exact hlt.le
    rw [show swapped k i (heapParent i) j = k j by simp [swapped, hjp, hji]]
    by_cases hc : heapParent j = i
    · -- a child of the old hole, which now holds the old parent
      simp only [swapped, hc, if_neg hpi.ne', if_true]
      exact h.skip hi j hj hjn hc
    by_cases hs : heapParent j = heapParent i
    · simp only [swapped, hs, if_true]
      rw [← hs] at hlt
      exact hlt.le.trans (h.rest j hj hjn hji)
    · simp only [swapped, if_neg hs, if_neg hc]
      exact h.rest j hj hjn hji
  · intro hp j hj hjn hc
    have hpp := heapParent_lt hp
    have hup : k (heapParent (heapParent i)) ≤ k (heapParent i) := h.rest _ hp (by omega) (by omega)
    rw [show swapped k i (heapParent i) (heapParent (heapParent i)) =
        k (heapParent (heapParent i)) by simp [swapped, hpp.ne, (show
          heapParent (heapParent i) ≠ i by omega)]]
    by_cases hji : j = i
    · subst hji
      simpa only [swapped, if_neg hpi.ne', if_true] using hup
    have hjp : j ≠ heapParent i := by
      have := heapParent_lt hj
      omega
    simp only [swapped, if_neg hjp, if_neg hji]
    refine hup.trans ?_
    rw [← hc]
    exact h.rest j hj hjn hji

theorem DownOrder.ordered {k : ℕ → κ} (h : DownOrder k n i)
    (hi : ∀ j, 0 < j → j < n → heapParent j = i → k i ≤ k j) : HeapOrdered k n := by
  intro j hj hjn
  by_cases hc : heapParent j = i
  · rw [hc]
    exact hi j hj hjn hc
  · exact h.rest j hj hjn hc

theorem DownOrder.swap {k : ℕ → κ} (h : DownOrder k n i) (hc : 0 < c) (hn : c < n)
    (hpc : heapParent c = i) (hlt : k c < k i)
    (hmin : ∀ j, 0 < j → j < n → heapParent j = i → k c ≤ k j) :
    DownOrder (swapped k i c) n c := by
  have hic : i < c := hpc ▸ heapParent_lt hc
  constructor
  · intro j hj hjn hjc
    have hpj := heapParent_lt hj
    by_cases hjc' : j = c
    · subst hjc'
      simp only [swapped, hpc, if_neg hic.ne]
      exact hlt.le
    by_cases hji : j = i
    · subst hji
      simp only [swapped, if_neg hjc, if_neg hjc', if_neg hpj.ne]
      exact h.skip hj c hc hn hpc
    · simp only [swapped, if_neg hjc]
      split_ifs with hp
      · exact hmin j hj hjn hp
      · exact h.rest j hj hjn hp
  · intro _ j hj hjn hpj
    have hcj : c < j := hpj ▸ heapParent_lt hj
    simp only [swapped, hpc, if_neg hic.ne, if_neg hcj.ne', if_neg (hic.trans hcj).ne']
    rw [← hpj]
    exact h.rest j hj hjn (by omega)

end Order

section Sift

variable {σ κ : Type*} [LinearOrder κ] {lt : σ → ℕ → ℕ → Bool} {swap : σ → ℕ → ℕ → σ}

/-- The store compares positions below `n` by their keys, and a swap of two of them
exchanges their keys. -/
structure Keyed (lt : σ → ℕ → ℕ → Bool) (swap : σ → ℕ → ℕ → σ) (key : σ → ℕ → κ) (n : ℕ)
    (ok : σ → Prop) : Prop where
  lt_iff : ∀ {s i j}, ok s → i < n → j < n → (lt s i j = true ↔ key s i < key s j)
  swap_ok : ∀ {s i j}, ok s → i < n → j < n → ok (swap s i j)
  swap_key : ∀ {s i j}, ok s → i < n → j < n → key (swap s i j) = swapped (key s) i j

variable {key : σ → ℕ → κ} {n : ℕ} {ok : σ → Prop}

theorem siftUp_invariant {P : σ → Prop} (hP : ∀ s i j, i < n → j < n → P s → P (swap s i j))
    (hi : i < n) (h : P s) : P (siftUp lt swap fuel s i) := by
  induction fuel generalizing s i with
  | zero => exact h
  | succ fuel ih =>
    simp only [siftUp]
    split
    · next hc =>
      have := heapParent_lt hc.1
      exact ih (by omega) (hP s i _ hi (by omega) h)
    · exact h

variable (lt) in
theorem smallestOf_lt (s : σ) (hi : i < n) : smallestOf lt s n i < n := by
  simp only [smallestOf]
  split_ifs <;> omega

theorem siftDown_invariant {P : σ → Prop} (hP : ∀ s i j, i < n → j < n → P s → P (swap s i j))
    (hi : i < n) (h : P s) : P (siftDown lt swap n fuel s i) := by
  induction fuel generalizing s i with
  | zero => exact h
  | succ fuel ih =>
    simp only [siftDown]
    split
    · exact h
    · exact ih (smallestOf_lt lt _ hi) (hP s i _ hi (smallestOf_lt lt _ hi) h)

theorem siftUp_ordered (K : Keyed lt swap key n ok) (hs : ok s) (hi : i < n) (hf : i ≤ fuel)
    (h : UpOrder (key s) n i) : HeapOrdered (key (siftUp lt swap fuel s i)) n := by
  induction fuel generalizing s i with
  | zero => exact h.ordered fun hpos => by omega
  | succ fuel ih =>
    simp only [siftUp]
    split
    · next hc =>
      have hlt := heapParent_lt hc.1
      have hless := (K.lt_iff hs hi (by omega)).1 hc.2
      refine ih (K.swap_ok hs hi (by omega)) (by omega) (by omega) ?_
      rw [K.swap_key hs hi (by omega)]
      exact h.swap hc.1 hi hless
    · next hc =>
      refine h.ordered fun hpos => ?_
      have hlt := heapParent_lt hpos
      have : ¬lt s i (heapParent i) = true := fun hless => hc ⟨hpos, hless⟩
      rw [K.lt_iff hs hi (by omega)] at this
      exact not_lt.1 this

theorem heapParent_eq_iff (hj : 0 < j) : heapParent j = i ↔ j = 2 * i + 1 ∨ j = 2 * i + 2 := by
  simp only [heapParent]
  omega

theorem smallestOf_spec (K : Keyed lt swap key n ok) (hs : ok s) (hi : i < n) :
    key s (smallestOf lt s n i) ≤ key s i ∧
      (∀ j, 0 < j → j < n → heapParent j = i → key s (smallestOf lt s n i) ≤ key s j) ∧
      (smallestOf lt s n i ≠ i → 0 < smallestOf lt s n i ∧
        heapParent (smallestOf lt s n i) = i ∧ key s (smallestOf lt s n i) < key s i) := by
  have hchild : ∀ {P : ℕ → Prop}, (2 * i + 1 < n → P (2 * i + 1)) → (2 * i + 2 < n → P (2 * i + 2)) →
      ∀ j, 0 < j → j < n → heapParent j = i → P j := by
    intro P h1 h2 j hj hjn hp
    rcases (heapParent_eq_iff hj).1 hp with rfl | rfl
    · exact h1 hjn
    · exact h2 hjn
  have hp1 : heapParent (2 * i + 1) = i := (heapParent_eq_iff (by omega)).2 (.inl rfl)
  have hp2 : heapParent (2 * i + 2) = i := (heapParent_eq_iff (by omega)).2 (.inr rfl)
  simp only [smallestOf]
  by_cases hl : 2 * i + 1 < n
  · rw [if_pos hl]
    by_cases hlt : lt s (2 * i + 1) i = true
    · have hk := (K.lt_iff hs hl hi).1 hlt
      simp only [if_pos hlt]
      split
      · next hr =>
        have hk2 := (K.lt_iff hs hr.1 hl).1 hr.2
        exact ⟨(hk2.trans hk).le, hchild (fun _ => hk2.le) (fun _ => le_rfl),
          fun _ => ⟨by omega, hp2, hk2.trans hk⟩⟩
      · next hr =>
        refine ⟨hk.le, hchild (fun _ => le_rfl) (fun h2 => ?_), fun _ => ⟨by omega, hp1, hk⟩⟩
        have : ¬lt s (2 * i + 1 + 1) (2 * i + 1) = true := fun hless => hr ⟨h2, hless⟩
        rw [K.lt_iff hs h2 hl] at this
        exact not_lt.1 this
    · have hk := mt (K.lt_iff hs hl hi).2 hlt
      simp only [if_neg hlt]
      split
      · next hr =>
        have hk2 := (K.lt_iff hs hr.1 hi).1 hr.2
        exact ⟨hk2.le, hchild (fun _ => hk2.le.trans (not_lt.1 hk)) (fun _ => le_rfl),
          fun _ => ⟨by omega, hp2, hk2⟩⟩
      · next hr =>
        refine ⟨le_rfl, hchild (fun _ => not_lt.1 hk) (fun h2 => ?_), absurd rfl⟩
        have : ¬lt s (2 * i + 1 + 1) i = true := fun hless => hr ⟨h2, hless⟩
        rw [K.lt_iff hs h2 hi] at this
        exact not_lt.1 this
  · rw [if_neg hl]
    exact ⟨le_rfl, hchild (fun h => absurd h hl) fun h => by omega, absurd rfl⟩

theorem siftDown_ordered (K : Keyed lt swap key n ok) (hs : ok s) (hi : i < n) (hf : n ≤ fuel + i)
    (h : DownOrder (key s) n i) :
    HeapOrdered (key (siftDown lt swap n fuel s i)) n := by
  induction fuel generalizing s i with
  | zero => omega
  | succ fuel ih =>
    obtain ⟨-, hmin, hchild⟩ := smallestOf_spec K hs hi
    simp only [siftDown]
    split
    · next heq =>
      rw [heq] at hmin
      exact h.ordered hmin
    · next hne =>
      obtain ⟨hpos, hpar, hlt⟩ := hchild hne
      have hcn := smallestOf_lt lt s hi
      have hgt := hpar ▸ heapParent_lt hpos
      refine ih (K.swap_ok hs hi hcn) hcn (by omega) ?_
      rw [K.swap_key hs hi hcn]
      exact h.swap hpos hcn hpar hlt hmin

theorem siftUp_of_ordered (K : Keyed lt swap key n ok) (hs : ok s) (hi : i < n)
    (h : HeapOrdered (key s) n) : siftUp lt swap fuel s i = s := by
  cases fuel with
  | zero => rfl
  | succ fuel =>
    rw [siftUp, if_neg]
    rintro ⟨hpos, hless⟩
    have hlt := heapParent_lt hpos
    exact not_lt.2 (h i hpos hi) ((K.lt_iff hs hi (by omega)).1 hless)

theorem siftDown_of_lt_parent (K : Keyed lt swap key n ok) (hs : ok s) (hi : i < n)
    (hlt : key s i < key s (heapParent i))
    (hskip : ∀ j, 0 < j → j < n → heapParent j = i → key s (heapParent i) ≤ key s j) :
    siftDown lt swap n fuel s i = s := by
  cases fuel with
  | zero => rfl
  | succ fuel =>
    rw [siftDown, if_pos]
    by_contra hne
    obtain ⟨hpc, hpar, hlow⟩ := (smallestOf_spec K hs hi).2.2 hne
    have := hskip _ hpc (smallestOf_lt lt _ hi) hpar
    exact lt_irrefl _ (hlow.trans (hlt.trans_le this))

theorem push_ordered {k : ℕ → κ} (K : Keyed lt swap key (n + 1) ok) (hs : ok s)
    (hord : HeapOrdered k n) (heq : ∀ i < n, key s i = k i) :
    HeapOrdered (key (siftUp lt swap n s n)) (n + 1) := by
  refine siftUp_ordered K hs n.lt_succ_self le_rfl ⟨fun j hj hjn hne => ?_, fun _ j hj hjn hc => ?_⟩
  · have hlt := heapParent_lt hj
    rw [heq j (by omega), heq _ (by omega)]
    exact hord j hj (by omega)
  · have hlt := heapParent_lt hj
    omega

/-- Sinking and then rising restores the order around one replaced position. -/
theorem sift_ordered {k : ℕ → κ} (K : Keyed lt swap key n ok) (hs : ok s) (hi : i < n)
    (hord : HeapOrdered k (n + 1)) (heq : ∀ j < n, j ≠ i → key s j = k j) :
    HeapOrdered (key (siftUp lt swap i (siftDown lt swap n n s i) i)) n := by
  have hok : ok (siftDown lt swap n n s i) :=
    siftDown_invariant (fun s i j hi hj hs => K.swap_ok hs hi hj) hi hs
  have hrest (j) (hj : 0 < j) (hjn : j < n) (hji : j ≠ i) (hc : heapParent j ≠ i) :
      key s (heapParent j) ≤ key s j := by
    have hlt := heapParent_lt hj
    rw [heq j hjn hji, heq _ (by omega) hc]
    exact hord j hj (by omega)
  -- the replaced element stood between its parent and its children
  have hskip (hpos : 0 < i) (j) (hj : 0 < j) (hjn : j < n) (hc : heapParent j = i) :
      key s (heapParent i) ≤ key s j := by
    have hlt := heapParent_lt hj
    have hlt' := heapParent_lt hpos
    rw [heq j hjn (by omega), heq _ (by omega) (by omega)]
    have hup := hord j hj (by omega)
    rw [hc] at hup
    exact (hord i hpos (by omega)).trans hup
  by_cases hlow : 0 < i ∧ key s i < key s (heapParent i)
  · rw [siftDown_of_lt_parent K hs hi hlow.2 (hskip hlow.1)]
    refine siftUp_ordered K hs hi le_rfl ⟨fun j hj hjn hji => ?_, hskip⟩
    by_cases hc : heapParent j = i
    · rw [hc]
      exact hlow.2.le.trans (hskip hlow.1 j hj hjn hc)
    · exact hrest j hj hjn hji hc
  have hdown : DownOrder (key s) n i := by
    refine ⟨fun j hj hjn hc => ?_, hskip⟩
    by_cases hji : j = i
    · subst hji
      exact not_lt.1 fun hlt => hlow ⟨hj, hlt⟩
    · exact hrest j hj hjn hji hc
  have hord := siftDown_ordered K hs hi (Nat.le_add_right _ _) hdown
  rwa [siftUp_of_ordered K hok hi hord]

end Sift

end ZephyrRtos.Lib
