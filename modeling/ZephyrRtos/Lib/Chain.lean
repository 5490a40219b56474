import Mathlib.Data.List.Nodup

/-! Singly linked chains.  A chain is given by its successor function, in which `none`
as an argument is the sentinel and `none` as a result the end. -/

namespace ZephyrRtos.Lib

open List Function

variable {τ : Type*}

/-- Following `next` from `x` visits exactly `l`. -/
def Chain (next : Option τ → Option τ) : Option τ → List τ → Prop
  | x, [] => next x = none
  | x, y :: l => next x = some y ∧ Chain next (some y) l

def lastFrom (x : Option τ) : List τ → Option τ
  | [] => x
  | y :: l => lastFrom (some y) l

/-- Step along the chain while the successor satisfies `p`, at most `fuel` times. -/
def walk (next : Option τ → Option τ) (p : τ → Bool) : ℕ → Option τ → Option τ
  | 0, x => x
  | fuel + 1, x =>
    match next x with
    | some y => if p y then walk next p fuel (some y) else x
    | none => x

variable {next next' : Option τ → Option τ} {x : Option τ} {l l₁ l₂ : List τ} {t : τ}

theorem lastFrom_append (x : Option τ) (l₁ l₂ : List τ) :
    lastFrom x (l₁ ++ l₂) = lastFrom (lastFrom x l₁) l₂ := by
  induction l₁ generalizing x with
  | nil => rfl
  | cons y l ih => exact ih (some y)

theorem lastFrom_mem (x : Option τ) (l : List τ) :
    lastFrom x l = x ∨ ∃ y ∈ l, lastFrom x l = some y := by
  induction l generalizing x with
  | nil => exact .inl rfl
  | cons y l ih =>
    rcases ih (some y) with h | ⟨z, hz, h⟩
    · exact .inr ⟨y, mem_cons_self, h⟩
    · exact .inr ⟨z, mem_cons_of_mem _ hz, h⟩

theorem Chain.drop (h : Chain next x (l₁ ++ l₂)) : Chain next (lastFrom x l₁) l₂ := by
  induction l₁ generalizing x with
  | nil => exact h
  | cons y l ih => exact ih h.2

theorem Chain.congr (h : Chain next x l) (hx : next' x = next x)
    (hl : ∀ y ∈ l, next' (some y) = next (some y)) : Chain next' x l := by
  induction l generalizing x with
  | nil => exact hx.trans h
  | cons y l ih =>
    rw [forall_mem_cons] at hl
    exact ⟨hx.trans h.1, ih h.2 hl.1 hl.2⟩

theorem Chain.walk_eq (h : Chain next x l) (p : τ → Bool) (hf : l.length ≤ fuel) :
    walk next p fuel x = lastFrom x (l.takeWhile p) := by
  induction l generalizing x fuel with
  | nil =>
    have h : next x = none := h
    cases fuel <;> simp [walk, h, lastFrom]
  | cons y l ih =>
    obtain ⟨hy, hrest⟩ := h
    cases fuel with
    | zero => simp at hf
    | succ n =>
      simp only [walk, hy, takeWhile_cons]
      split
      · exact ih hrest (by simpa using hf)
      · rfl

theorem exists_filter_split (hpq : ∀ y, p y = true → q y = true) (x : Option τ) (l : List τ) :
    ∃ a b, l.filter q = a ++ b ∧ lastFrom x a = lastFrom x (l.filter p) := by
  induction l generalizing x with
  | nil => exact ⟨[], [], rfl, rfl⟩
  | cons y l ih =>
    by_cases hp : p y = true
    · obtain ⟨a, b, hab, hlast⟩ := ih (some y)
      exact ⟨y :: a, b, by simp [hpq y hp, hab], by simpa [hp, lastFrom] using hlast⟩
    · cases hf : l.filter p with
      | nil => exact ⟨[], (y :: l).filter q, rfl, by simp [hp, hf]⟩
      | cons z zs =>
        by_cases hq : q y = true
        · obtain ⟨a, b, hab, hlast⟩ := ih (some y)
          refine ⟨y :: a, b, by simp [hq, hab], ?_⟩
          simpa [hp, hf, lastFrom] using hlast
        · obtain ⟨a, b, hab, hlast⟩ := ih x
          exact ⟨a, b, by simpa [hq] using hab, by simpa [hp] using hlast⟩

theorem Chain.walk_resume (hpq : ∀ y, p y = true → q y = true)
    (h : Chain next x ((l₁ ++ l₂).filter q)) (h₁ : ∀ y ∈ l₁, skip y = true)
    (h₂ : ∀ y ∈ l₂, ¬skip y = true) (hf : (l₁ ++ l₂).length ≤ fuel) :
    walk next skip fuel (lastFrom x (l₁.filter p)) = lastFrom x (l₁.filter q) := by
  obtain ⟨a, b, hab, hlast⟩ := exists_filter_split hpq x l₁
  rw [filter_append, hab, append_assoc] at h
  have hb : ∀ y ∈ b, skip y = true := fun y hy =>
    h₁ y (mem_of_mem_filter (by rw [hab]; exact mem_append_right _ hy))
  have htake : (b ++ l₂.filter q).takeWhile skip = b := by
    rw [takeWhile_append_of_pos hb]
    cases hl : l₂.filter q with
    | nil => simp
    | cons z zs =>
      have hz : z ∈ l₂ := mem_of_mem_filter (by rw [hl]; exact mem_cons_self)
      simp [h₂ z hz]
  have hlen : (b ++ l₂.filter q).length ≤ fuel := by
    have h1 := length_filter_le q l₁
    have h2 := length_filter_le q l₂
    rw [hab, length_append] at h1
    rw [length_append] at hf ⊢
    omega
  rw [← hlast, h.drop.walk_eq skip hlen, htake, hab, lastFrom_append]

section Splice

variable [DecidableEq τ]

def spliceIn (next : Option τ → Option τ) (x : Option τ) (t : τ) : Option τ → Option τ :=
  update (update next (some t) (next x)) x (some t)

def spliceOut (next : Option τ → Option τ) (x : Option τ) (t : τ) : Option τ → Option τ :=
  update next x (next (some t))

theorem lastFrom_ne (hx : ∀ z ∈ y :: l, some z ≠ x) : x ≠ lastFrom (some y) l := by
  rcases lastFrom_mem (some y) l with h | ⟨z, hz, h⟩ <;> rw [h]
  · exact (hx y mem_cons_self).symm
  · exact (hx z (mem_cons_of_mem _ hz)).symm

theorem Chain.spliceIn (h : Chain next x (l₁ ++ l₂)) (hn : (l₁ ++ l₂).Nodup)
    (hx : ∀ z ∈ l₁ ++ l₂, some z ≠ x) (ht : t ∉ l₁ ++ l₂) (htx : some t ≠ x) :
    Chain (spliceIn next (lastFrom x l₁) t) x (l₁ ++ t :: l₂) := by
  induction l₁ generalizing x with
  | nil =>
    have hfresh : ∀ z ∈ l₂, some z ≠ x ∧ some z ≠ some t := by
      refine fun z hz => ⟨hx z hz, ?_⟩
      rintro ⟨⟩
      exact ht hz
    have hsucc : spliceIn next x t (some t) = next x := by simp [spliceIn, htx]
    refine ⟨by simp [spliceIn, lastFrom], ?_⟩
    simp only [lastFrom]
    cases l₂ with
    | nil => exact hsucc.trans h
    | cons z zs =>
      rw [forall_mem_cons] at hfresh
      refine ⟨hsucc.trans h.1, h.2.congr ?_ fun y hy => ?_⟩
      · simp [spliceIn, hfresh.1.1, hfresh.1.2]
      · simp [spliceIn, (hfresh.2 y hy).1, (hfresh.2 y hy).2]
  | cons y l ih =>
    have hnd := nodup_cons.1 hn
    have hne : x ≠ lastFrom (some y) l := lastFrom_ne fun z hz => hx z (mem_append_left _ hz)
    refine ⟨?_, ih h.2 hnd.2 ?_ (fun hm => ht (mem_cons_of_mem _ hm)) ?_⟩
    · rw [← h.1]
      simp [spliceIn, lastFrom, hne, htx.symm]
    · rintro z hz ⟨⟩
      exact hnd.1 hz
    · rintro ⟨⟩
      exact ht mem_cons_self

theorem Chain.spliceOut (h : Chain next x (l₁ ++ t :: l₂)) (hn : (l₁ ++ t :: l₂).Nodup)
    (hx : ∀ z ∈ l₁ ++ t :: l₂, some z ≠ x) :
    Chain (spliceOut next (lastFrom x l₁) t) x (l₁ ++ l₂) := by
  induction l₁ generalizing x with
  | nil =>
    have hfresh : ∀ z ∈ l₂, some z ≠ x := fun z hz => hx z (mem_cons_of_mem _ hz)
    have hsucc : spliceOut next x t x = next (some t) := by simp [spliceOut]
    cases l₂ with
    | nil => exact hsucc.trans h.2
    | cons z zs =>
      rw [forall_mem_cons] at hfresh
      refine ⟨hsucc.trans h.2.1, h.2.2.congr ?_ fun y hy => ?_⟩
      · simp [spliceOut, lastFrom, hfresh.1]
      · simp [spliceOut, lastFrom, hfresh.2 y hy]
  | cons y l ih =>
    have hnd := nodup_cons.1 hn
    have hne : x ≠ lastFrom (some y) l := lastFrom_ne fun z hz => hx z (mem_append_left _ hz)
    refine ⟨?_, ih h.2 hnd.2 ?_⟩
    · rw [← h.1]
      simp [spliceOut, lastFrom, hne]
    · rintro z hz ⟨⟩
      exact hnd.1 hz

end Splice

end ZephyrRtos.Lib
