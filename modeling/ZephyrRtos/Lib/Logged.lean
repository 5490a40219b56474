import Mathlib.Logic.Basic

/-! Programs over a state that may fail and that log their effects. What holds whenever such a
program is cut off between two effects is a property of each entry of its log. -/

namespace ZephyrRtos.Lib

/-- How a program ends, and the effects it had. -/
structure Outcome (σ ε ω α : Type) where
  result : Except ε α
  state : σ
  log : List ω

def Logged (σ ε ω α : Type) := σ → Outcome σ ε ω α

namespace Logged

variable {σ ε ω α β : Type}

def bind (m : Logged σ ε ω α) (f : α → Logged σ ε ω β) : Logged σ ε ω β := fun s =>
  match m s with
  | ⟨.ok a, t, l⟩ => ⟨(f a t).result, (f a t).state, l ++ (f a t).log⟩
  | ⟨.error e, t, l⟩ => ⟨.error e, t, l⟩

instance : Monad (Logged σ ε ω) where
  pure a := fun s => ⟨.ok a, s, []⟩
  bind := bind

def get : Logged σ ε ω σ := fun s => ⟨.ok s, s, []⟩

def modify (f : σ → σ) : Logged σ ε ω Unit := fun s => ⟨.ok (), f s, []⟩

def throw (e : ε) : Logged σ ε ω α := fun s => ⟨.error e, s, []⟩

def reads (f : σ → Except ε α) : Logged σ ε ω α := fun s => ⟨f s, s, []⟩

/-- `f` is done to the state however `m` ends. -/
def andThen (m : Logged σ ε ω α) (f : σ → σ) : Logged σ ε ω α := fun s =>
  ⟨(m s).result, f (m s).state, (m s).log⟩

/-- From `s`, the program returns `a` in `t`, and each of its effects meets `G`. -/
def Returns (m : Logged σ ε ω α) (s : σ) (G : ω → Prop) (a : α) (t : σ) : Prop :=
  ∃ l, m s = ⟨.ok a, t, l⟩ ∧ ∀ w ∈ l, G w

/-- From `s`, the program fails with `e` in `t`, and each of its effects meets `G`. -/
def Fails (m : Logged σ ε ω α) (s : σ) (G : ω → Prop) (e : ε) (t : σ) : Prop :=
  ∃ l, m s = ⟨.error e, t, l⟩ ∧ ∀ w ∈ l, G w

variable {m : Logged σ ε ω α} {f : α → Logged σ ε ω β} {s t u : σ} {a : α} {b : β} {e : ε}
  {G G' : ω → Prop}

theorem bind_eq (h : m s = ⟨.ok a, t, l⟩) (h' : f a t = ⟨r, u, l'⟩) :
    (m >>= f) s = ⟨r, u, l ++ l'⟩ := by
  show Logged.bind m f s = _
  rw [Logged.bind, h]
  dsimp only
  rw [h']

namespace Returns

theorem pure : Returns (pure a : Logged σ ε ω α) s G a s := ⟨[], rfl, by simp⟩

theorem bind (h : Returns m s G a t) (h' : Returns (f a) t G b u) : Returns (m >>= f) s G b u := by
  obtain ⟨l, hm, hl⟩ := h
  obtain ⟨l', hf, hl'⟩ := h'
  exact ⟨l ++ l', bind_eq hm hf, List.forall_mem_append.2 ⟨hl, hl'⟩⟩

theorem bind_inv (h : Returns (m >>= f) s G b u) : ∃ a t, Returns m s G a t ∧ Returns (f a) t G b u := by
  obtain ⟨l, heq, hl⟩ := h
  have heq : Logged.bind m f s = _ := heq
  rw [Logged.bind] at heq
  split at heq
  next a t l₁ hm =>
    injection heq with h1 h2 h3
    refine ⟨a, t, ⟨l₁, hm, fun w hw => hl w (h3 ▸ List.mem_append_left _ hw)⟩,
      ⟨(f a t).log, ?_, fun w hw => hl w (h3 ▸ List.mem_append_right _ hw)⟩⟩
    rw [← h1, ← h2]
  next => cases heq

theorem get : Returns (get : Logged σ ε ω σ) s G s s := ⟨[], rfl, by simp⟩

theorem modify : Returns (modify g : Logged σ ε ω Unit) s G () (g s) := ⟨[], rfl, by simp⟩

theorem reads (h : g s = .ok a) : Returns (reads g : Logged σ ε ω α) s G a s :=
  ⟨[], by rw [Logged.reads, h], by simp⟩

theorem andThen (h : Returns m s G a t) : Returns (andThen m g) s G a (g t) := by
  obtain ⟨l, hm, hl⟩ := h
  exact ⟨l, by rw [Logged.andThen, hm], hl⟩

end Returns

namespace Fails

theorem throw : Fails (throw e : Logged σ ε ω α) s G e s := ⟨[], rfl, by simp⟩

theorem bind (h : Returns m s G a t) (h' : Fails (f a) t G e u) : Fails (m >>= f) s G e u := by
  obtain ⟨l, hm, hl⟩ := h
  obtain ⟨l', hf, hl'⟩ := h'
  exact ⟨l ++ l', bind_eq hm hf, List.forall_mem_append.2 ⟨hl, hl'⟩⟩

end Fails

end Logged

end ZephyrRtos.Lib
