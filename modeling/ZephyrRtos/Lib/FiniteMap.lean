import Mathlib.Data.Finmap

namespace ZephyrRtos.Lib

open List

abbrev FiniteMap (κ ν : Type) := Finmap fun _ : κ => ν

variable {κ ν : Type} [DecidableEq κ] {l l' : List (κ × ν)} {m : FiniteMap κ ν} {k : κ} {v w : ν}

theorem keys_insert : (m.insert k v).keys = insert k m.keys := by
  ext k'
  rw [Finmap.mem_keys, Finmap.mem_insert, Finset.mem_insert, Finmap.mem_keys]

theorem erase_of_lookup_eq_none (h : m.lookup k = none) : m.erase k = m := by
  apply Finmap.ext_lookup
  intro k'
  by_cases hk : k' = k
  · rw [hk, Finmap.lookup_erase, h]
  · rw [Finmap.lookup_erase_ne hk]

structure Lists (l : List (κ × ν)) (m : FiniteMap κ ν) : Prop where
  nodup : (l.map Prod.fst).Nodup
  mem_iff : ∀ k v, (k, v) ∈ l ↔ m.lookup k = some v

namespace Lists

section

variable (h : Lists l m)
include h

theorem keys_eq : m.keys = (l.map Prod.fst).toFinset := by
  ext k
  rw [Finmap.mem_keys, Finmap.mem_iff, mem_toFinset, mem_map]
  constructor
  · rintro ⟨v, hv⟩
    exact ⟨(k, v), (h.mem_iff k v).2 hv, rfl⟩
  · rintro ⟨⟨k', v⟩, hmem, rfl⟩
    exact ⟨v, (h.mem_iff k' v).1 hmem⟩

theorem card_keys : m.keys.card = l.length := by
  rw [h.keys_eq, toFinset_card_of_nodup h.nodup, length_map]

theorem perm (hp : l.Perm l') : Lists l' m where
  nodup := ((hp.map Prod.fst).nodup_iff).1 h.nodup
  mem_iff k v := by rw [← hp.mem_iff, h.mem_iff]

theorem perm_of (h' : Lists l' m) : l.Perm l' := by
  rw [perm_ext_iff_of_nodup h.nodup.of_map h'.nodup.of_map]
  rintro ⟨-, -⟩
  rw [h.mem_iff, h'.mem_iff]

theorem unique (h' : Lists l m') : m = m' := by
  apply Finmap.ext_lookup
  intro k
  apply Option.ext
  intro v
  rw [← h.mem_iff, ← h'.mem_iff]

end

theorem nil : Lists ([] : List (κ × ν)) ∅ where
  nodup := nodup_nil
  mem_iff k v := by simp

theorem eq_empty (h : Lists [] m) : m = ∅ := by
  apply Finmap.ext_lookup
  intro k
  rw [Finmap.lookup_empty, Option.eq_none_iff_forall_ne_some]
  intro v hv
  exact absurd ((h.mem_iff k v).2 hv) not_mem_nil

theorem cons (h : Lists l m) (hk : m.lookup k = none) : Lists ((k, v) :: l) (m.insert k v) where
  nodup := by
    rw [map_cons, nodup_cons, mem_map]
    refine ⟨?_, h.nodup⟩
    rintro ⟨⟨k', w⟩, hmem, rfl⟩
    rw [h.mem_iff, hk] at hmem
    simp at hmem
  mem_iff k' w := by
    rw [mem_cons, h.mem_iff]
    by_cases hkk : k' = k
    · subst hkk
      simp [hk, eq_comm]
    · simp [hkk]

section

variable (h : Lists ((k, v) :: l) m)
include h

theorem head : m.lookup k = some v := (h.mem_iff k v).1 mem_cons_self

theorem tail : Lists l (m.erase k) where
  nodup := (nodup_cons.1 h.nodup).2
  mem_iff k' w := by
    have hnot : ∀ u, (k, u) ∉ l := fun u hu =>
      (nodup_cons.1 h.nodup).1 (mem_map.2 ⟨(k, u), hu, rfl⟩)
    by_cases hkk : k' = k
    · subst hkk
      simp [hnot w]
    · rw [Finmap.lookup_erase_ne hkk, ← h.mem_iff]
      simp [hkk]

theorem replace : Lists ((k, w) :: l) (m.insert k w) := by
  have hcons : Lists ((k, w) :: l) ((m.erase k).insert k w) := h.tail.cons (Finmap.lookup_erase ..)
  have heq : (m.erase k).insert k w = m.insert k w := by
    apply Finmap.ext_lookup
    intro k'
    by_cases hkk : k' = k
    · subst hkk
      simp
    · rw [Finmap.lookup_insert_of_ne _ hkk, Finmap.lookup_insert_of_ne _ hkk,
        Finmap.lookup_erase_ne hkk]
  rwa [heq] at hcons

end

end Lists

theorem lists_iff : Lists l m ↔ (l.map Prod.fst).Nodup ∧ m.keys.card = l.length ∧
    ∀ p ∈ l, m.lookup p.1 = some p.2 := by
  constructor
  · intro h
    exact ⟨h.nodup, h.card_keys, fun p hp => (h.mem_iff p.1 p.2).1 hp⟩
  rintro ⟨hnd, hcard, hmem⟩
  refine ⟨hnd, fun k v => ⟨hmem _, fun hv => ?_⟩⟩
  have hsub : (l.map Prod.fst).toFinset ⊆ m.keys := by
    intro k' hk'
    obtain ⟨p, hp, rfl⟩ := mem_map.1 (mem_toFinset.1 hk')
    exact Finmap.mem_keys.2 (Finmap.mem_of_lookup_eq_some (hmem p hp))
  have hall : (l.map Prod.fst).toFinset = m.keys := by
    apply Finset.eq_of_subset_of_card_le hsub
    rw [hcard, toFinset_card_of_nodup hnd, length_map]
  have hk : k ∈ (l.map Prod.fst).toFinset := by
    rw [hall]
    exact Finmap.mem_of_lookup_eq_some hv
  obtain ⟨⟨k', w⟩, hp, rfl⟩ := mem_map.1 (mem_toFinset.1 hk)
  obtain rfl : w = v := by simpa [hv, eq_comm] using hmem _ hp
  exact hp

instance [DecidableEq ν] (l : List (κ × ν)) (m : FiniteMap κ ν) : Decidable (Lists l m) :=
  decidable_of_iff _ lists_iff.symm

/-- An operation with its result: what an insertion or removal found under the key, what a look-up
found, what an iteration visited. -/
inductive MapOp (κ ν : Type)
  | insert (k : κ) (v : ν) (old : Option ν)
  | remove (k : κ) (old : Option ν)
  | get (k : κ) (found : Option ν)
  | visit (items : List (κ × ν))
  | clear
  deriving DecidableEq

def MapOp.run [DecidableEq ν] (m : FiniteMap κ ν) : MapOp κ ν → Option (FiniteMap κ ν)
  | .insert k v old => if m.lookup k = old then some (m.insert k v) else none
  | .remove k old => if m.lookup k = old then some (m.erase k) else none
  | .get k found => if m.lookup k = found then some m else none
  | .visit items => if Lists items m then some m else none
  | .clear => some ∅

end ZephyrRtos.Lib
