import Mathlib.Logic.Basic

namespace ZephyrRtos.Lib

open List

variable {τ ε π : Type} [DecidableEq τ] {thread : ε → τ} {on : π → ε → Option π}

/-- The events of a thread move its phase on; those of the others do not matter. -/
def watch (thread : ε → τ) (on : π → ε → Option π) (t : τ) (p : π) (e : ε) : Option π :=
  if thread e = t then on p e else some p

/-- The events take each thread from its phase in `p` to that in `p'`. -/
def Follows (thread : ε → τ) (on : π → ε → Option π) (es : List ε) (p p' : τ → π) : Prop :=
  ∀ t, es.foldlM (watch thread on t) (p t) = some (p' t)

variable {es es' : List ε} {p p' p'' : τ → π}

theorem foldlM_watch_other (q : π) (h : ∀ e ∈ es, thread e ≠ t) :
    es.foldlM (watch thread on t) q = some q := by
  induction es with
  | nil => rfl
  | cons e es ih =>
    rw [foldlM_cons, watch, if_neg (h e (.head _))]
    exact ih fun e he => h e (.tail _ he)

theorem foldlM_watch_own (q : π) (h : ∀ e ∈ es, thread e = t) :
    es.foldlM (watch thread on t) q = es.foldlM on q := by
  induction es generalizing q with
  | nil => rfl
  | cons e es ih =>
    rw [foldlM_cons, watch, if_pos (h e (.head _))]
    exact bind_congr fun q => ih q fun e he => h e (.tail _ he)

theorem foldlM_watch_map {l : List τ} {f : τ → ε} (q : π) (hf : ∀ u, thread (f u) = u)
    (hl : l.Nodup) (ht : t ∈ l) : (l.map f).foldlM (watch thread on t) q = on q (f t) := by
  induction l with
  | nil => simp at ht
  | cons u l ih =>
    obtain ⟨hu, hl⟩ := nodup_cons.1 hl
    rw [map_cons, foldlM_cons, watch, hf]
    obtain rfl | hne := eq_or_ne u t
    · have hrest : ∀ p, (l.map f).foldlM (watch thread on u) p = some p := fun p =>
        foldlM_watch_other p fun e he => by
          obtain ⟨v, hv, rfl⟩ := mem_map.1 he
          rw [hf]
          rintro rfl
          exact hu hv
      simp [funext hrest]
    · rw [if_neg hne]
      exact ih hl ((mem_cons.1 ht).resolve_left hne.symm)

namespace Follows

theorem append (h : Follows thread on es p p') (h' : Follows thread on es' p' p'') :
    Follows thread on (es ++ es') p p'' := by
  intro t
  rw [foldlM_append, h t]
  exact h' t

theorem of_mem (hne : ∀ t, (∀ e ∈ es, thread e ≠ t) → p' t = p t)
    (h : ∀ e ∈ es, es.foldlM (watch thread on (thread e)) (p (thread e)) = some (p' (thread e))) :
    Follows thread on es p p' := by
  intro t
  by_cases ht : ∀ e ∈ es, thread e ≠ t
  · rw [hne t ht, foldlM_watch_other _ ht]
  · simp only [not_forall, not_not] at ht
    obtain ⟨e, he, rfl⟩ := ht
    exact h e he

theorem own (t : τ) (ht : ∀ e ∈ es, thread e = t) (hne : ∀ u ≠ t, p' u = p u)
    (h : es.foldlM on (p t) = some (p' t)) : Follows thread on es p p' := by
  intro u
  obtain rfl | hu := eq_or_ne u t
  · rw [foldlM_watch_own _ ht, h]
  · rw [hne u hu]
    exact foldlM_watch_other _ fun e he => ht e he ▸ hu.symm

theorem quiet (h : ∀ t, p' t = p t) : Follows thread on [] p p' := fun t => by rw [h t]; rfl

end Follows

end ZephyrRtos.Lib
