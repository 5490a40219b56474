import Mathlib.Logic.Basic

/-! Deterministic labelled systems that emit events, and their runs. -/

namespace ZephyrRtos.Lib

/-- `step s a` is `none` when action `a` is not enabled in `s`. -/
structure System (σ α ε : Type) where
  init : σ
  step : σ → α → Option (σ × List ε)

variable {σ α ε : Type} {S : System σ α ε}

/-- A run from `s` whose every step meets `ok`, with the events it emitted. -/
inductive Run (S : System σ α ε) (ok : σ → α → Prop) (s : σ) : List ε → σ → Prop
  | refl : Run S ok s [] s
  | snoc {es es' t u a} : Run S ok s es t → ok t a → S.step t a = some (u, es') →
      Run S ok s (es ++ es') u

def Reaches (S : System σ α ε) (ok : σ → α → Prop) (es : List ε) (s : σ) : Prop :=
  Run S ok S.init es s

theorem Run.invariant {ok : σ → α → Prop} {I : List ε → σ → Prop} (h0 : I [] s)
    (hs : ∀ es t a u es', I es t → ok t a → S.step t a = some (u, es') → I (es ++ es') u)
    {es : List ε} (h : Run S ok s es t) : I es t := by
  induction h with
  | refl => exact h0
  | snoc _ ha hstep ih => exact hs _ _ _ _ _ ih ha hstep

theorem Run.mono (h : Run S ok s es t) (himp : ∀ s a, ok s a → ok' s a) : Run S ok' s es t := by
  induction h with
  | refl => exact .refl
  | snoc _ ha hstep ih => exact .snoc ih (himp _ _ ha) hstep

theorem Run.trans (h : Run S ok s es t) (h' : Run S ok t es' u) : Run S ok s (es ++ es') u := by
  induction h' with
  | refl => simpa using h
  | snoc _ ha hstep ih => rw [← List.append_assoc]; exact .snoc ih ha hstep

theorem Run.single (a : α) (ha : ok s a) (hs : S.step s a = some (t, es)) : Run S ok s es t := by
  have h : Run S ok s ([] ++ es) t := .snoc .refl ha hs
  simpa using h

theorem Run.head (ha : ok s a) (hs : S.step s a = some (t, es)) (h : Run S ok t es' u) :
    Run S ok s (es ++ es') u := by
  exact .trans (.single a ha hs) h

/-- Perform a list of actions, or `none` at the first one that is not enabled or does
not meet `ok`. -/
def System.exec (S : System σ α ε) (ok : σ → α → Prop) [∀ s a, Decidable (ok s a)] :
    σ → List α → Option (σ × List ε)
  | s, [] => some (s, [])
  | s, a :: as =>
    if ok s a then do
      let (t, es) ← S.step s a
      let (u, es') ← S.exec ok t as
      return (u, es ++ es')
    else none

theorem Run.of_exec [∀ s a, Decidable (ok s a)] (h : S.exec ok s as = some (t, es)) :
    Run S ok s es t := by
  induction as generalizing s es with
  | nil =>
    obtain ⟨rfl, rfl⟩ : s = t ∧ [] = es := by simpa [System.exec] using h
    exact .refl
  | cons a as ih =>
    simp only [System.exec] at h
    split at h
    case isFalse => simp at h
    next hok =>
    simp only [Option.bind_eq_bind, Option.bind_eq_some_iff] at h
    obtain ⟨⟨v, es₁⟩, hstep, ⟨w, es₂⟩, hrest, heq⟩ := h
    obtain ⟨rfl, rfl⟩ : w = t ∧ es₁ ++ es₂ = es := by simpa using heq
    exact .head hok hstep (ih hrest)

theorem Run.of_exec_map (S : System σ α ε) (ok : σ → α → Prop) [∀ s a, Decidable (ok s a)] (s : σ)
    (as : List α) (f : σ → List ε → β) (h : (S.exec ok s as).map (fun r => f r.1 r.2) = some b) :
    ∃ es t, Run S ok s es t ∧ f t es = b := by
  obtain ⟨⟨t, es⟩, hexec, hf⟩ := Option.map_eq_some_iff.1 h
  exact ⟨es, t, .of_exec hexec, hf⟩

/-- A concrete run from the initial state, with what can be decided at its end. -/
theorem Reaches.of_exec (S : System σ α ε) (ok : σ → α → Prop) [∀ s a, Decidable (ok s a)]
    (as : List α) (p : List ε → σ → Prop) [∀ es s, Decidable (p es s)]
    (h : (S.exec ok S.init as).any (fun r => p r.2 r.1) = true) :
    ∃ es s, Reaches S ok es s ∧ p es s := by
  obtain ⟨⟨t, es⟩, hexec, hp⟩ := (Option.any_eq_true _ _).1 h
  exact ⟨es, t, Run.of_exec hexec, of_decide_eq_true hp⟩

/-- The same, with what holds in every state that is reached. -/
theorem Reaches.of_exec_and {ok : σ → α → Prop} [∀ s a, Decidable (ok s a)]
    {p r : List ε → σ → Prop} [∀ es s, Decidable (p es s)] (as : List α)
    (h : (S.exec ok S.init as).any (fun r => p r.2 r.1) = true)
    (hr : ∀ es s, Reaches S ok es s → r es s) : ∃ es s, Reaches S ok es s ∧ p es s ∧ r es s := by
  obtain ⟨es, s, hrun, hp⟩ := Reaches.of_exec S ok as p h
  exact ⟨es, s, hrun, hp, hr es s hrun⟩

end ZephyrRtos.Lib
