import Mathlib.Data.List.Basic

/-! A map that is kept as a log of records. The newest record with a key has its value, and a record
with an empty value deletes the key. -/

namespace ZephyrRtos.Lib.LogStore

open List

variable {ρ κ β : Type} [DecidableEq κ] {key : ρ → κ} {val : ρ → List β}

def lookup (key : ρ → κ) (val : ρ → List β) (k : κ) (log : List ρ) : List β :=
  ((log.find? (key · = k)).map val).getD []

variable {log older copies newer done : List ρ} {k : κ} {e x : ρ}

theorem lookup_nil : lookup key val k [] = [] := rfl

theorem lookup_cons : lookup key val k (e :: log) = if key e = k then val e else lookup key val k log := by
  unfold lookup
  by_cases h : key e = k <;> simp [h]

theorem lookup_append_of_forall (h : ∀ x ∈ log, key x ≠ k) :
    lookup key val k (log ++ older) = lookup key val k older := by
  unfold lookup
  rw [find?_append, find?_eq_none.2 (by simpa using h)]
  rfl

theorem lookup_eq_nil (h : ∀ x ∈ log, key x ≠ k) : lookup key val k log = [] := by
  rw [← append_nil log, lookup_append_of_forall h, lookup_nil]

theorem lookup_append_of_mem (h : x ∈ log) (hx : key x = k) :
    lookup key val k (log ++ older) = lookup key val k log := by
  unfold lookup
  rw [find?_append]
  obtain ⟨y, hy⟩ := Option.isSome_iff_exists.1
    (find?_isSome.2 ⟨x, h, decide_eq_true hx⟩ : (log.find? (key · = k)).isSome)
  rw [hy, Option.some_or]

theorem lookup_snoc (key : ρ → κ) (val : ρ → List β) (k : κ) (log : List ρ) (e : ρ) :
    lookup key val k (log ++ [e]) = lookup key val k log ∨
      (∀ x ∈ log, key x ≠ k) ∧ lookup key val k (log ++ [e]) = lookup key val k [e] := by
  by_cases hmem : ∃ x ∈ log, key x = k
  · obtain ⟨x, hx, hk⟩ := hmem
    exact .inl (lookup_append_of_mem hx hk)
  · have hall : ∀ x ∈ log, key x ≠ k := fun x hx hk => hmem ⟨x, hx, hk⟩
    exact .inr ⟨hall, lookup_append_of_forall hall⟩

theorem lookup_snoc_of_ne (h : key e ≠ k) :
    lookup key val k (log ++ [e]) = lookup key val k log := by
  obtain heq | ⟨hall, heq⟩ := lookup_snoc key val k log e
  · exact heq
  · rw [heq, lookup_eq_nil hall, lookup_cons, if_neg h, lookup_nil]

theorem lookup_snoc_deleted (h : val e = []) :
    lookup key val k (log ++ [e]) = lookup key val k log := by
  obtain heq | ⟨hall, heq⟩ := lookup_snoc key val k log e
  · exact heq
  · rw [heq, lookup_eq_nil hall, lookup_cons, h, lookup_nil, ite_self]

theorem lookup_snoc_hidden (h : x ∈ log) (hx : key x = key e) :
    lookup key val k (log ++ [e]) = lookup key val k log := by
  by_cases hk : key e = k
  · exact lookup_append_of_mem h (hx.trans hk)
  · exact lookup_snoc_of_ne hk

def Live (key : ρ → κ) (val : ρ → List β) (newer : List ρ) (e : ρ) : Prop :=
  val e ≠ [] ∧ ∀ x ∈ newer, key x ≠ key e

instance [DecidableEq β] : Decidable (Live key val newer e) := by
  unfold Live
  infer_instance

def live [DecidableEq β] (key : ρ → κ) (val : ρ → List β) (newer : List ρ) : List ρ → List ρ
  | [] => []
  | e :: log => (if Live key val newer e then [e] else []) ++ live key val (newer ++ [e]) log

theorem live_snoc [DecidableEq β] : live key val newer (log ++ [e]) =
    live key val newer log ++ if Live key val (newer ++ log) e then [e] else [] := by
  induction log generalizing newer with
  | nil => simp [live]
  | cons x log ih =>
    simp [live, ih]

theorem live_sublist [DecidableEq β] : (live key val newer log).Sublist log := by
  induction log generalizing newer with
  | nil => exact .refl _
  | cons x log ih =>
    rw [live]
    split
    · exact ih.cons_cons x
    · exact ih.cons x

theorem val_of_mem_live [DecidableEq β] (h : x ∈ live key val newer log) : val x ≠ [] := by
  induction log generalizing newer with
  | nil => cases h
  | cons y log ih =>
    obtain h | h := mem_append.1 h
    · split at h
      next hlive => exact (mem_singleton.1 h) ▸ hlive.1
      next => cases h
    · exact ih h

theorem live_congr [DecidableEq β]
    (h : ∀ e ∈ log, val e ≠ [] → ((∃ x ∈ newer, key x = key e) ↔ ∃ x ∈ newer', key x = key e)) :
    live key val newer log = live key val newer' log := by
  induction log generalizing newer newer' with
  | nil => rfl
  | cons e log ih =>
    have hiff : Live key val newer e ↔ Live key val newer' e := by
      refine and_congr_right fun hval => ?_
      have := not_congr (h e mem_cons_self hval)
      simpa using this
    rw [live, if_congr hiff rfl rfl]
    congr 1
    refine ih fun x hx hval => ?_
    have hx := h x (mem_cons_of_mem _ hx) hval
    simp only [mem_append, or_and_right, exists_or]
    rw [hx]

theorem live_eq_self [DecidableEq β] (hval : ∀ x ∈ log, val x ≠ []) (hkeys : (log.map key).Nodup)
    (hnew : ∀ x ∈ log, ∀ y ∈ newer, key y ≠ key x) : live key val newer log = log := by
  induction log generalizing newer with
  | nil => rfl
  | cons e log ih =>
    have hlive : Live key val newer e := ⟨hval e mem_cons_self, hnew e mem_cons_self⟩
    obtain ⟨he, hkeys⟩ := nodup_cons.1 hkeys
    rw [live, if_pos hlive, ih (fun x hx => hval x (mem_cons_of_mem _ hx)) hkeys, singleton_append]
    intro x hx y hy
    obtain hy | hy := mem_append.1 hy
    · exact hnew x (mem_cons_of_mem _ hx) y hy
    · rw [mem_singleton.1 hy]
      exact fun heq => he (heq ▸ mem_map_of_mem hx)

/-- The records of `done` were collected: they are older than those of `newer`, and copies of the live
ones were put in front. -/
structure Collected (key : ρ → κ) (val : ρ → List β) (keep : κ → Prop) (newer done copies : List ρ) :
    Prop where
  lookup : ∀ k, keep k → lookup key val k (copies ++ newer) = lookup key val k (newer ++ done)
  keys : ∀ x ∈ copies, ∃ y ∈ done, key y = key x
  fresh : ∀ x ∈ copies, ∀ y ∈ newer, key y ≠ key x
  nodup : (copies.map key).Nodup
  vals : ∀ x ∈ copies, val x ≠ []

variable {keep : κ → Prop}

theorem Collected.nil : Collected key val keep newer [] [] where
  lookup _ _ := by rw [nil_append, append_nil]
  keys _ h := absurd h not_mem_nil
  fresh _ h := absurd h not_mem_nil
  nodup := .nil
  vals _ h := absurd h not_mem_nil

namespace Collected

section

variable (h : Collected key val keep newer done copies)
include h

theorem mem_keys (hx : x ∈ copies) : ∃ y ∈ done ++ [e], key y = key x := by
  obtain ⟨y, hy, hk⟩ := h.keys x hx
  exact ⟨y, mem_append_left _ hy, hk⟩

theorem mono (hk : ∀ k, keep' k → keep k) : Collected key val keep' newer done copies :=
  { h with lookup := fun k hk' => h.lookup k (hk k hk') }

theorem drop (hdrop : val e = [] ∨ (∃ x ∈ newer ++ done, key x = key e) ∨ ¬keep (key e)) :
    Collected key val keep newer (done ++ [e]) copies :=
  { h with
    lookup k hk := by
      rw [h.lookup k hk, ← append_assoc]
      obtain hdel | ⟨x, hx, hxe⟩ | hkeep := hdrop
      · exact (lookup_snoc_deleted hdel).symm
      · exact (lookup_snoc_hidden hx hxe).symm
      · exact (lookup_snoc_of_ne (by rintro rfl; exact hkeep hk)).symm
    keys x hx := h.mem_keys hx }

theorem copy (hlive : Live key val (newer ++ done) e) (hkey : key e' = key e)
    (hval : val e' = val e) : Collected key val keep newer (done ++ [e]) (e' :: copies) where
  lookup k hk := by
    rw [cons_append, lookup_cons, hkey, hval, h.lookup k hk, ← append_assoc]
    split
    next heq =>
      subst heq
      rw [lookup_append_of_forall hlive.2, lookup_cons, if_pos rfl]
    next hne => exact (lookup_snoc_of_ne hne).symm
  keys x hx := by
    obtain rfl | hx := mem_cons.1 hx
    · exact ⟨e, mem_append_right _ (mem_singleton.2 rfl), hkey.symm⟩
    · exact h.mem_keys hx
  fresh x hx := by
    obtain rfl | hx := mem_cons.1 hx
    · rw [hkey]
      exact fun y hy => hlive.2 y (mem_append_left _ hy)
    · exact h.fresh x hx
  nodup := by
    rw [map_cons, nodup_cons, hkey]
    refine ⟨fun hmem => ?_, h.nodup⟩
    obtain ⟨x, hx, heq⟩ := mem_map.1 hmem
    obtain ⟨y, hy, hk⟩ := h.keys x hx
    exact hlive.2 y (mem_append_right _ hy) (hk.trans heq)
  vals x hx := by
    obtain rfl | hx := mem_cons.1 hx
    · rw [hval]
      exact hlive.1
    · exact h.vals x hx

end

end Collected

end ZephyrRtos.Lib.LogStore
