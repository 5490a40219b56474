import ZephyrRtos.Lib.BinHeap
import ZephyrRtos.Lib.MachineInt

/-! `include/zephyr/sys/min_heap_ref.h`: a binary min-heap of caller-owned nodes, each of
which knows its own position. -/

namespace ZephyrRtos.Sys

open Function Lib

variable {τ : Type} [DecidableEq τ]

/-- The heap and the `idx` of every handle; an empty slot is a null pointer. -/
structure MinHeapRef (τ : Type) where
  storage : ℕ → Option τ
  size : ℕ
  idx : τ → ℕ

def uint16Max : ℕ := 2 ^ 16 - 1

def MinHeapRef.empty : MinHeapRef τ := ⟨fun _ => none, 0, fun _ => 0⟩

def lessAt (less : τ → τ → Bool) (h : MinHeapRef τ) (i j : ℕ) : Bool :=
  match h.storage i, h.storage j with
  | some a, some b => less a b
  | _, _ => false

def setIdx (idx : τ → ℕ) (handle : Option τ) (n : ℕ) : τ → ℕ :=
  match handle with
  | some t => update idx t (n % 2 ^ 16)
  | none => idx

def minHeapRefSwap (h : MinHeapRef τ) (a b : ℕ) : MinHeapRef τ :=
  let storage := update (update h.storage a (h.storage b)) b (h.storage a)
  { h with
    storage := storage
    idx := setIdx (setIdx h.idx (storage a) (a + 1)) (storage b) (b + 1) }

def minHeapRefHeapifyUp (less : τ → τ → Bool) (h : MinHeapRef τ) (index : ℕ) : MinHeapRef τ :=
  siftUp (lessAt less) minHeapRefSwap index h index

def minHeapRefHeapifyDown (less : τ → τ → Bool) (h : MinHeapRef τ) (index : ℕ) : MinHeapRef τ :=
  siftDown (lessAt less) minHeapRefSwap h.size h.size h index

/-- `none` where an assertion fails; otherwise the heap, and whether there was room. -/
def minHeapRefPush (less : τ → τ → Bool) (capacity : ℕ) (h : MinHeapRef τ) (t : τ) :
    Option (MinHeapRef τ × Bool) :=
  if h.idx t = 0 ∧ h.size < uint16Max then
    if capacity ≤ h.size then some (h, false)
    else
      let h' : MinHeapRef τ :=
        ⟨update h.storage h.size (some t), h.size + 1, update h.idx t ((h.size + 1) % 2 ^ 16)⟩
      some (minHeapRefHeapifyUp less h' (h'.size - 1), true)
  else none

def minHeapRefPeek (h : MinHeapRef τ) : Option τ := if h.size = 0 then none else h.storage 0

def minHeapRefRemove (less : τ → τ → Bool) (h : MinHeapRef τ) (t : τ) : MinHeapRef τ × Bool :=
  if h.idx t = 0 ∨ h.size < h.idx t then (h, false)
  else
    let id := h.idx t - 1
    let size := h.size - 1
    let idx := update h.idx t 0
    if id ≠ size then
      let last := h.storage size
      let h' : MinHeapRef τ :=
        ⟨update (update h.storage size none) id last, size, setIdx idx last (id + 1)⟩
      (minHeapRefHeapifyUp less (minHeapRefHeapifyDown less h' id) id, true)
    else (⟨update h.storage size none, size, idx⟩, true)

def minHeapRefPop (less : τ → τ → Bool) (h : MinHeapRef τ) : Option (τ × MinHeapRef τ) :=
  match minHeapRefPeek h with
  | none => none
  | some t => some (t, (minHeapRefRemove less h t).1)

/-- Every slot in use holds a handle that knows where it is, and every handle that is
not in a slot knows that. -/
structure MinHeapRef.Placed (h : MinHeapRef τ) : Prop where
  slot : ∀ i < h.size, ∃ t, h.storage i = some t ∧ h.idx t = i + 1
  member : ∀ t, h.idx t = 0 ∨ ∃ i < h.size, h.storage i = some t
  size_le : h.size ≤ uint16Max

namespace MinHeapRef

variable {h : MinHeapRef τ} {t : τ} {i j : ℕ}

section

omit [DecidableEq τ]

theorem Placed.idx_eq (p : h.Placed) (hi : i < h.size) (ht : h.storage i = some t) :
    h.idx t = i + 1 := by
  obtain ⟨u, hu, hidx⟩ := p.slot i hi
  rw [ht] at hu
  rw [Option.some.inj hu, hidx]

theorem Placed.at_idx (p : h.Placed) (ht : h.idx t ≠ 0) :
    h.idx t - 1 < h.size ∧ h.storage (h.idx t - 1) = some t := by
  obtain h0 | ⟨i, hi, hs⟩ := p.member t
  · exact absurd h0 ht
  · rw [p.idx_eq hi hs]
    exact ⟨hi, hs⟩

theorem Placed.idx_of_peek (p : h.Placed) (ht : minHeapRefPeek h = some t) : h.idx t = 1 := by
  simp only [minHeapRefPeek] at ht
  split at ht
  · simp at ht
  · exact p.idx_eq (by omega) ht

end

theorem swap_storage (h : MinHeapRef τ) (a b k : ℕ) : (minHeapRefSwap h a b).storage k =
    if k = b then h.storage a else if k = a then h.storage b else h.storage k := by
  simp [minHeapRefSwap, update_apply]

theorem Placed.swap_idx (p : h.Placed) (hi : i < h.size) (hj : j < h.size) (u : τ) :
    (minHeapRefSwap h i j).idx u =
      if h.idx u = i + 1 then j + 1 else if h.idx u = j + 1 then i + 1 else h.idx u := by
  obtain ⟨x, hx, hxi⟩ := p.slot i hi
  obtain ⟨y, hy, hyj⟩ := p.slot j hj
  have hle := p.size_le
  have hmi : (i + 1) % 2 ^ 16 = i + 1 := Nat.mod_eq_of_lt (by simp only [uint16Max] at hle; omega)
  have hmj : (j + 1) % 2 ^ 16 = j + 1 := Nat.mod_eq_of_lt (by simp only [uint16Max] at hle; omega)
  have hinj : ∀ {k v}, k < h.size → h.storage k = some v → h.idx u = k + 1 → u = v := by
    intro k v hk hv hu
    have hat := (p.at_idx (t := u) (by omega)).2
    rw [hu, Nat.add_sub_cancel, hv] at hat
    exact (Option.some.inj hat).symm
  have hb : (minHeapRefSwap h i j).storage j = some x := by
    rw [swap_storage, if_pos rfl, hx]
  have ha : (minHeapRefSwap h i j).storage i = some (if i = j then x else y) := by
    rw [swap_storage, if_pos rfl]
    split_ifs with hij
    · exact hx
    · exact hy
  have hidx : (minHeapRefSwap h i j).idx = update
      (update h.idx (if i = j then x else y) (i + 1)) x (j + 1) := by
    have : (minHeapRefSwap h i j).idx = setIdx (setIdx h.idx ((minHeapRefSwap h i j).storage i)
        (i + 1)) ((minHeapRefSwap h i j).storage j) (j + 1) := rfl
    rw [this, ha, hb]
    simp only [setIdx, hmi, hmj]
  rw [hidx]
  by_cases hux : u = x
  · subst hux
    simp [hxi]
  have hne : h.idx u ≠ i + 1 := fun hu => hux (hinj hi hx hu)
  rw [update_of_ne hux, if_neg hne]
  by_cases hij : i = j
  · subst hij
    simp [hux]
  rw [if_neg hij]
  by_cases huy : u = y
  · subst huy
    simp [hyj]
  · have hne' : h.idx u ≠ j + 1 := fun hu => huy (hinj hj hy hu)
    rw [update_of_ne huy, if_neg hne']

theorem Placed.swap (p : h.Placed) (hi : i < h.size) (hj : j < h.size) :
    (minHeapRefSwap h i j).Placed where
  slot k hk := by
    simp only [swap_storage, p.swap_idx hi hj]
    by_cases hkj : k = j
    · subst hkj
      obtain ⟨x, hx, hxi⟩ := p.slot i hi
      exact ⟨x, by rw [if_pos rfl, hx], by rw [if_pos hxi]⟩
    by_cases hki : k = i
    · subst hki
      obtain ⟨y, hy, hyj⟩ := p.slot j hj
      refine ⟨y, by rw [if_neg hkj, if_pos rfl, hy], ?_⟩
      rw [hyj, if_neg (by omega), if_pos rfl]
    · obtain ⟨z, hz, hzk⟩ := p.slot k hk
      refine ⟨z, by rw [if_neg hkj, if_neg hki, hz], ?_⟩
      rw [hzk, if_neg (by omega), if_neg (by omega)]
  member u := by
    obtain h0 | ⟨k, hk, hu⟩ := p.member u
    · left
      rw [p.swap_idx hi hj, h0, if_neg (by omega), if_neg (by omega)]
    right
    simp only [swap_storage]
    by_cases hki : k = i
    · exact ⟨j, hj, by rw [if_pos rfl, ← hki, hu]⟩
    · by_cases hkj : k = j
      · refine ⟨i, hi, ?_⟩
        subst hkj
        rw [if_neg (Ne.symm hki), if_pos rfl, hu]
      · exact ⟨k, hk, by rw [if_neg hkj, if_neg hki, hu]⟩
  size_le := p.size_le

/-- `h'` holds the handles of `h` in other slots. -/
structure Rearranged (h h' : MinHeapRef τ) : Prop where
  placed : h'.Placed
  size : h'.size = h.size
  members : ∀ u, h'.idx u = 0 ↔ h.idx u = 0

theorem Rearranged.swap (r : Rearranged h h') (hi : i < h.size) (hj : j < h.size) :
    Rearranged h (minHeapRefSwap h' i j) where
  placed := r.placed.swap (by rwa [r.size]) (by rwa [r.size])
  size := r.size
  members u := by
    rw [r.placed.swap_idx (by rwa [r.size]) (by rwa [r.size]), ← r.members u]
    split_ifs with h1 h2
    · simp [h1]
    · simp [h2]
    · rfl

variable {less : τ → τ → Bool} {κ : Type} [LinearOrder κ] {f : τ → κ}

theorem Placed.rearranged_self (p : h.Placed) : Rearranged h h := ⟨p, rfl, fun _ => .rfl⟩

def keyAt (f : τ → κ) (d : κ) (h : MinHeapRef τ) (i : ℕ) : κ := (h.storage i).elim d f

theorem keyed (hless : ∀ a b, less a b = true ↔ f a < f b) (d : κ) (h : MinHeapRef τ) :
    Keyed (lessAt less) minHeapRefSwap (keyAt f d) h.size (Rearranged h) where
  lt_iff {s i j} r hi hj := by
    obtain ⟨x, hx, -⟩ := r.placed.slot i (by rwa [r.size])
    obtain ⟨y, hy, -⟩ := r.placed.slot j (by rwa [r.size])
    simp [lessAt, keyAt, hx, hy, hless]
  swap_ok r hi hj := r.swap hi hj
  swap_key {s i j} _ _ _ := by
    funext k
    simp only [keyAt, swap_storage, swapped]
    split_ifs <;> rfl

variable (less) in
theorem Placed.heapifyUp (p : h.Placed) (hi : i < h.size) :
    Rearranged h (minHeapRefHeapifyUp less h i) :=
  siftUp_invariant (P := Rearranged h) (fun _ _ _ hi hj r => r.swap hi hj) hi p.rearranged_self

variable (less) in
theorem Placed.heapifyDown (p : h.Placed) (hi : i < h.size) :
    Rearranged h (minHeapRefHeapifyDown less h i) :=
  siftDown_invariant (P := Rearranged h) (fun _ _ _ hi hj r => r.swap hi hj) hi p.rearranged_self

theorem Rearranged.trans (r : Rearranged h h') (r' : Rearranged h' h'') :
    Rearranged h h'' :=
  ⟨r'.placed, r'.size.trans r.size, fun u => (r'.members u).trans (r.members u)⟩

section Push

/-- The heap of `min_heap_ref_push` before it sifts. -/
def append (h : MinHeapRef τ) (t : τ) : MinHeapRef τ :=
  ⟨update h.storage h.size (some t), h.size + 1, update h.idx t ((h.size + 1) % 2 ^ 16)⟩

theorem Placed.append (p : h.Placed) (ht : h.idx t = 0) (hs : h.size < uint16Max) :
    (h.append t).Placed := by
  have hmod : (h.size + 1) % 2 ^ 16 = h.size + 1 :=
    Nat.mod_eq_of_lt (by simp only [uint16Max] at hs; omega)
  refine ⟨fun i hi => ?_, fun u => ?_, hs⟩
  · by_cases hlast : i = h.size
    · subst hlast
      exact ⟨t, by simp [MinHeapRef.append], by simp only [MinHeapRef.append, update_self, hmod]⟩
    have hi : i < h.size + 1 := hi
    obtain ⟨u, hu, hidx⟩ := p.slot i (by omega)
    have hut : u ≠ t := by
      rintro rfl
      omega
    exact ⟨u, by simp [MinHeapRef.append, hlast, hu], by simp [MinHeapRef.append, hut, hidx]⟩
  · by_cases hut : u = t
    · exact .inr ⟨h.size, Nat.lt_succ_self _, by simp [MinHeapRef.append, hut]⟩
    · obtain h0 | ⟨i, hi, hu⟩ := p.member u
      · exact .inl (by simp [MinHeapRef.append, hut, h0])
      · refine .inr ⟨i, Nat.lt_succ_of_lt hi, ?_⟩
        simp [MinHeapRef.append, hi.ne, hu]

theorem Placed.push (p : h.Placed) (hp : minHeapRefPush less capacity h t = some (h', b))
    (hb : b = true) :
    h'.Placed ∧ h'.size = h.size + 1 ∧ (∀ u, h'.idx u = 0 ↔ u ≠ t ∧ h.idx u = 0) ∧
      ∀ (f : τ → κ) (d : κ), (∀ a b, less a b = true ↔ f a < f b) →
        HeapOrdered (keyAt f d h) h.size → HeapOrdered (keyAt f d h') h'.size := by
  simp only [minHeapRefPush] at hp
  split at hp
  case isFalse => simp at hp
  next hpre =>
  split at hp
  · cases hp
    simp at hb
  cases hp
  have hap := p.append hpre.1 hpre.2
  have hlast : h.size < (h.append t).size := Nat.lt_succ_self _
  have r := hap.heapifyUp less hlast
  refine ⟨r.placed, r.size, fun u => (r.members u).trans ?_, fun f d hless hord => ?_⟩
  · by_cases hut : u = t
    · subst hut
      have hidx := hap.idx_eq hlast (t := u) (by simp [MinHeapRef.append])
      simp only [hidx]
      simp
    · simp [MinHeapRef.append, hut]
  have hn := push_ordered (keyed hless d (h.append t)) hap.rearranged_self hord fun i hi => by
    simp [keyAt, MinHeapRef.append, hi.ne]
  exact fun j hj hjn => hn j hj (hjn.trans_eq r.size)

end Push

section Remove

/-- The heap of `min_heap_ref_remove` before it sifts, for a handle that is not last. -/
def fill (h : MinHeapRef τ) (t : τ) : MinHeapRef τ :=
  ⟨update (update h.storage (h.size - 1) none) (h.idx t - 1)
      (h.storage (h.size - 1)), h.size - 1,
    setIdx (update h.idx t 0) (h.storage (h.size - 1)) (h.idx t - 1 + 1)⟩

theorem fill_storage (h : MinHeapRef τ) (t : τ) (hk : k < h.size - 1) :
    (h.fill t).storage k =
      if k = h.idx t - 1 then h.storage (h.size - 1) else h.storage k := by
  simp [fill, update_apply, if_neg hk.ne]

theorem Placed.fill (p : h.Placed) (ht : h.idx t ≠ 0) (hlast : h.idx t - 1 ≠ h.size - 1) :
    (h.fill t).Placed ∧ ∀ u, (h.fill t).idx u = 0 ↔ u = t ∨ h.idx u = 0 := by
  obtain ⟨hid, hst⟩ := p.at_idx ht
  obtain ⟨l, hl, hlidx⟩ := p.slot (h.size - 1) (by omega)
  have hle := p.size_le
  have hlt : l ≠ t := by
    rintro rfl
    omega
  have hmod : (h.idx t - 1 + 1) % 2 ^ 16 = h.idx t - 1 + 1 :=
    Nat.mod_eq_of_lt (by simp only [uint16Max] at hle; omega)
  have hidx : (h.fill t).idx = update (update h.idx t 0) l (h.idx t - 1 + 1) := by
    simp only [MinHeapRef.fill, hl, setIdx, hmod]
  have hmem : ∀ u, (h.fill t).idx u = 0 ↔ u = t ∨ h.idx u = 0 := by
    intro u
    rw [hidx]
    by_cases hul : u = l
    · subst hul
      simp [hlt]
      omega
    · rw [update_of_ne hul]
      by_cases hut : u = t <;> simp [hut]
  refine ⟨⟨fun i hi => ?_, fun u => ?_, ?_⟩, hmem⟩
  · have hi : i < h.size - 1 := hi
    rw [fill_storage h t hi, hidx]
    by_cases hit : i = h.idx t - 1
    · exact ⟨l, by rw [if_pos hit, hl], by rw [update_self, hit]⟩
    obtain ⟨u, hu, huidx⟩ := p.slot i (by omega)
    have hut : u ≠ t := by
      rintro rfl
      omega
    have hul : u ≠ l := by
      rintro rfl
      omega
    exact ⟨u, by rw [if_neg hit, hu], by simp [hul, hut, huidx]⟩
  · by_cases h0 : (h.fill t).idx u = 0
    · exact .inl h0
    have hu : u ≠ t ∧ h.idx u ≠ 0 := by
      rw [hmem] at h0
      tauto
    obtain ⟨hi, hs⟩ := p.at_idx hu.2
    right
    by_cases hul : u = l
    · refine ⟨h.idx t - 1, show h.idx t - 1 < h.size - 1 by omega, ?_⟩
      rw [fill_storage h t (by omega), if_pos rfl, hl, hul]
    have hne : h.idx u - 1 ≠ h.size - 1 := by
      intro heq
      rw [heq, hl] at hs
      exact hul (Option.some.inj hs).symm
    have hne' : h.idx u - 1 ≠ h.idx t - 1 := by
      intro heq
      rw [heq, hst] at hs
      exact hu.1 (Option.some.inj hs).symm
    refine ⟨h.idx u - 1, show h.idx u - 1 < h.size - 1 by omega, ?_⟩
    rw [fill_storage h t (by omega), if_neg hne', hs]
  · show h.size - 1 ≤ uint16Max
    omega

theorem HeapOrdered.of_storage_eq (hord : HeapOrdered (keyAt f d h) h.size) (hn : n ≤ h.size)
    (heq : ∀ k < n, h'.storage k = h.storage k) : HeapOrdered (keyAt f d h') n := by
  intro j hj hjn
  have hlt := heapParent_lt hj
  simp only [keyAt, heq j hjn, heq (heapParent j) (by omega)]
  exact hord j hj (by omega)

variable (less) in
theorem Placed.remove (p : h.Placed) (ht : h.idx t ≠ 0) :
    (minHeapRefRemove less h t).1.Placed ∧ (minHeapRefRemove less h t).1.size = h.size - 1 ∧
      (∀ u, (minHeapRefRemove less h t).1.idx u = 0 ↔ u = t ∨ h.idx u = 0) ∧
      ∀ (f : τ → κ) (d : κ), (∀ a b, less a b = true ↔ f a < f b) →
        HeapOrdered (keyAt f d h) h.size →
        HeapOrdered (keyAt f d (minHeapRefRemove less h t).1) (h.size - 1) := by
  obtain ⟨hid, hst⟩ := p.at_idx ht
  have hin : ¬(h.idx t = 0 ∨ h.size < h.idx t) := by omega
  by_cases hlast : h.idx t - 1 ≠ h.size - 1
  · have heq : (minHeapRefRemove less h t).1 = minHeapRefHeapifyUp less
        (minHeapRefHeapifyDown less (h.fill t) (h.idx t - 1)) (h.idx t - 1) := by
      simp only [minHeapRefRemove, if_neg hin, if_pos hlast]
      rfl
    obtain ⟨hfill, hmem⟩ := p.fill ht hlast
    have hlt : h.idx t - 1 < (h.fill t).size := show h.idx t - 1 < h.size - 1 by omega
    have r := hfill.heapifyDown less hlt
    have r' := r.trans (r.placed.heapifyUp less (by rwa [r.size]))
    rw [heq]
    refine ⟨r'.placed, r'.size, fun u => (r'.members u).trans (hmem u), fun f d hless hord => ?_⟩
    rw [← Nat.sub_add_cancel (show 1 ≤ h.size by omega)] at hord
    refine sift_ordered (keyed hless d (h.fill t)) hfill.rearranged_self hlt hord fun k hk hne => ?_
    simp only [keyAt, fill_storage h t hk, if_neg hne]
  · have hlast : h.idx t - 1 = h.size - 1 := by omega
    have heq : (minHeapRefRemove less h t).1 =
        ⟨update h.storage (h.size - 1) none, h.size - 1, update h.idx t 0⟩ := by
      simp [minHeapRefRemove, hin, hlast]
    rw [heq]
    have hsame : ∀ k < h.size - 1,
        update h.storage (h.size - 1) none k = h.storage k := fun k hk =>
      update_of_ne hk.ne _ _
    refine ⟨⟨fun i hi => ?_, fun u => ?_, ?_⟩, rfl, fun u => ?_, fun f d _ hord =>
      HeapOrdered.of_storage_eq hord (Nat.sub_le _ _) hsame⟩
    · have hi : i < h.size - 1 := hi
      obtain ⟨u, hu, huidx⟩ := p.slot i (by omega)
      have hut : u ≠ t := by
        rintro rfl
        omega
      exact ⟨u, (hsame i hi).trans hu, by simp [hut, huidx]⟩
    · by_cases hut : u = t
      · exact .inl (by simp [hut])
      obtain h0 | ⟨i, hi, hu⟩ := p.member u
      · exact .inl (by simp [hut, h0])
      · have hne : i ≠ h.size - 1 := by
          rintro rfl
          rw [← hlast, hst] at hu
          exact hut (Option.some.inj hu).symm
        exact .inr ⟨i, show i < h.size - 1 by omega, by simp [hne, hu]⟩
    · have := p.size_le
      show h.size - 1 ≤ uint16Max
      omega
    · by_cases hut : u = t <;> simp [hut]

end Remove

end MinHeapRef

end ZephyrRtos.Sys
