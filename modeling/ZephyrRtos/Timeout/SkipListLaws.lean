import ZephyrRtos.Timeout.SkipList

namespace ZephyrRtos.Timeout.SkipList

open List Lib

variable {τ : Type} [DecidableEq τ] {L : Levels}

/-- `reseed` puts the generator anywhere, so that a run can draw any heights it is able
to return. -/
inductive Op (τ : Type)
  | reseed (rng : BitVec 32)
  | insert (now : ℕ) (t : τ) (dticks : ℤ)
  | remove (t : τ)
  | popDue (now : ℕ)

inductive OpEvent (τ : Type)
  | inserted (t : τ) (absTicks : ℤ)
  | removed (t : τ)
  | popped (t : τ)
  deriving DecidableEq

def opStep (L : Levels) (s : State τ) : Op τ → Option (State τ × List (OpEvent τ))
  | .reseed rng => some ({ s with slRng := rng }, [])
  | .insert now t dticks =>
    if s.height t = 0 then
      some ((zTimeoutQInsert L s now t dticks).1, [.inserted t (int64 (now + dticks))])
    else none
  | .remove t => if 0 < s.height t then some ((zTimeoutQRemove s t).1, [.removed t]) else none
  | .popDue now =>
    match zTimeoutQPopDue s now with
    | some (t, s') => some (s', [.popped t])
    | none => some (s, [])

def opSystem (L : Levels) : System (State τ) (Op τ) (OpEvent τ) := ⟨empty, opStep L⟩

def OpEvent.apply (q : List (τ × ℤ)) : OpEvent τ → List (τ × ℤ)
  | .inserted t a => insertStable (t, a) q
  | .removed t | .popped t => dropKey t q

def queued (es : List (OpEvent τ)) : List (τ × ℤ) := es.foldl OpEvent.apply []

def OpEvent.arrive (q : List (τ × ℤ)) : OpEvent τ → List (τ × ℤ)
  | .inserted t a => q ++ [(t, a)]
  | .removed t | .popped t => dropKey t q

def arrived (es : List (OpEvent τ)) : List (τ × ℤ) := es.foldl OpEvent.arrive []

@[simp] theorem queued_snoc (es : List (OpEvent τ)) (e : OpEvent τ) :
    queued (es ++ [e]) = e.apply (queued es) := by
  simp [queued]

@[simp] theorem arrived_snoc (es : List (OpEvent τ)) (e : OpEvent τ) :
    arrived (es ++ [e]) = e.arrive (arrived es) := by
  simp [arrived]

theorem map_fst_insertStable {absTicks : τ → ℤ} {q : List (τ × ℤ)} (h : ∀ x ∈ q, absTicks x.1 = x.2) :
    (insertStable (t, a) q).map Prod.fst = insertAt absTicks a t (q.map Prod.fst) := by
  induction q with
  | nil => rfl
  | cons y ys ih =>
    rw [forall_mem_cons] at h
    simp only [insertStable, insertAt, map_cons, takeWhile_cons, dropWhile_cons, h.1,
      decide_eq_true_eq]
    by_cases hlt : a < y.2
    · simp [hlt, not_le.2 hlt]
    · simp only [if_neg hlt, if_pos (not_lt.1 hlt), map_cons, cons_append]
      rw [ih h.2, insertAt]

structure Models (L : Levels) (s : State τ) (q p : List (τ × ℤ)) : Prop where
  wf : Wf L s (q.map Prod.fst)
  keys : ∀ x ∈ q, s.absTicks x.1 = x.2
  sort : StableSort q p

section Models

variable {s : State τ} {q p : List (τ × ℤ)} {t : τ}

section

omit [DecidableEq τ]

theorem Models.empty : Models L (empty : State τ) [] [] where
  wf := {
    nodup := .nil
    chain _ := rfl
    sorted := .nil
    active := by simp [SkipList.empty]
    le_levels := by simp [SkipList.empty]
    top_le := by simp
    top_mem := .inl rfl
    size := rfl }
  keys := by simp
  sort := .nil

theorem Models.mem_iff (h : Models L s q p) : t ∈ q.map Prod.fst ↔ 0 < s.height t := h.wf.active t

end

theorem Models.insert (h : Models L s q p) (ht : s.height t = 0) (c : ℕ) (d : ℤ) :
    Models L (zTimeoutQInsert L s c t d).1 (insertStable (t, int64 (c + d)) q)
      (p ++ [(t, int64 (c + d))]) := by
  have hmem : t ∉ q.map Prod.fst := by
    rw [h.mem_iff]
    omega
  refine ⟨?_, ?_, h.sort.insert _⟩
  · rw [map_fst_insertStable h.keys]
    exact h.wf.insert hmem c d
  intro x hx
  rw [insert_absTicks]
  rcases mem_insertStable.1 hx with rfl | hq
  · exact Function.update_self ..
  · have hne : x.1 ≠ t := by
      rintro rfl
      exact hmem (mem_map_of_mem hq)
    rw [Function.update_of_ne hne]
    exact h.keys x hq

theorem Models.of_unlink (h : Models L s q p) (hk : s'.absTicks = s.absTicks)
    (hwf : Wf L s' ((q.map Prod.fst).erase t)) : Models L s' (dropKey t q) (dropKey t p) := by
  refine ⟨?_, fun x hx => ?_, h.sort.dropKey t⟩
  · rwa [fst_dropKey_erase h.wf.nodup]
  · rw [hk]
    exact h.keys x (mem_dropKey.1 hx).1

theorem Models.remove (h : Models L s q p) (ht : 0 < s.height t) :
    Models L (zTimeoutQRemove s t).1 (dropKey t q) (dropKey t p) := by
  obtain ⟨pre, post, hl⟩ := append_of_mem (h.mem_iff.2 ht)
  refine h.of_unlink rfl ?_
  have hwf := h.wf
  rw [hl] at hwf ⊢
  have hpre : t ∉ pre := fun hm => (nodup_append'.1 hwf.nodup).2.2 hm mem_cons_self
  rw [erase_append_right _ hpre, erase_cons_head]
  exact hwf.remove

theorem Models.popDue (h : Models L s q p) (c : ℕ) :
    match zTimeoutQPopDue s c with
    | none => ∀ x ∈ q, int64 c < x.2
    | some (t, s') => ∃ a rest, q = (t, a) :: rest ∧ a ≤ int64 c ∧
        (∀ i < s.height t, s.forward none i = some t) ∧
        Models L s' (dropKey t q) (dropKey t p) := by
  have hfirst := h.wf.first
  cases q with
  | nil => simpa [zTimeoutQPopDue] using by rw [hfirst]; simp
  | cons y rest =>
    obtain ⟨t, a⟩ := y
    have hkey : s.absTicks t = a := h.keys _ mem_cons_self
    have hwf : Wf L s (t :: rest.map Prod.fst) := h.wf
    simp only [map_cons, head?_cons] at hfirst
    simp only [zTimeoutQPopDue, hfirst, hkey]
    by_cases hdue : int64 c < a
    · simp only [if_pos hdue]
      intro x hx
      rcases mem_cons.1 hx with rfl | hx
      · exact hdue
      · exact hdue.trans_le ((pairwise_cons.1 h.sort.sorted).1 x hx)
    simp only [if_neg hdue]
    refine ⟨a, rest, rfl, not_lt.1 hdue, fun i hi => ?_, ?_⟩
    · have hc := hwf.chain i
      rw [level_cons_of_lt hi] at hc
      exact hc.1
    · refine h.of_unlink rfl ?_
      rw [map_cons, erase_cons_head]
      exact .unlink (show Wf L s ([] ++ t :: _) from hwf) fun _ _ => rfl

end Models

structure Holds (L : Levels) (s : State τ) (c : ℕ) (p : List (τ × ℤ)) : Prop where
  models : ∃ q, Models L s q p
  due : ∀ x ∈ p, (c : ℤ) ≤ x.2
  bound : ∀ x ∈ p, x.2 ≤ int64Max

section Holds

variable {s : State τ} {c : ℕ} {p : List (τ × ℤ)} {t : τ} {e : ℤ}

theorem Holds.height_eq_zero (h : Holds L s c p) : s.height t = 0 ↔ t ∉ p.map Prod.fst := by
  obtain ⟨q, hm⟩ := h.models
  rw [← (hm.sort.perm.map Prod.fst).mem_iff, hm.mem_iff]
  omega

section

omit [DecidableEq τ]

theorem Holds.gap (h : Holds L s c p) (ht : (t, e) ∈ p) : int64 (s.absTicks t - c) = e - c := by
  obtain ⟨q, hm⟩ := h.models
  have hk := hm.keys _ ((hm.sort.mem_iff _).2 ht)
  have hd := h.due _ ht
  have hb := h.bound _ ht
  rw [hk]
  exact int64_eq

theorem Holds.first (h : Holds L s c p) :
    match skiplistFirst s with
    | none => p = []
    | some t => ∃ e, (t, e) ∈ p ∧ ∀ x ∈ p, e ≤ x.2 := by
  obtain ⟨q, hm⟩ := h.models
  rw [hm.wf.first]
  cases q with
  | nil =>
    refine eq_nil_iff_forall_not_mem.2 fun x hx => ?_
    simpa using (hm.sort.mem_iff x).2 hx
  | cons y rest => exact ⟨y.2, (hm.sort.mem_iff y).1 mem_cons_self, hm.sort.head.1⟩

theorem Holds.nextGap (h : Holds L s c p) (hf : ∀ x ∈ p, (c : ℤ) < x.2) :
    0 < zTimeoutQNextGap s c ∧ zTimeoutQNextGap s c ≤ int32Max ∧
      ∀ x ∈ p, c + zTimeoutQNextGap s c ≤ x.2 := by
  have hfirst := h.first
  simp only [zTimeoutQNextGap]
  cases hr : skiplistFirst s with
  | none =>
    simp only [hr] at hfirst
    simp [hfirst, int32Max]
  | some t =>
    simp only [hr] at hfirst
    obtain ⟨e, hte, hmin⟩ := hfirst
    have hpos := hf _ hte
    simp only at hpos ⊢
    rw [h.gap hte, if_neg (by omega), int32_eq (by simp only [int32Max]; omega) (min_le_right _ _)]
    refine ⟨by simp only [int32Max]; omega, min_le_right _ _, fun x hx => ?_⟩
    have := hmin x hx
    omega

end

theorem refines : Refines (drainOps L τ) (fun c d => (c : ℤ) + d ≤ int64Max) oldestFirst
    (Holds L) where
  init := ⟨⟨[], .empty⟩, by simp, by simp⟩
  inactive t h := by simpa using h.height_eq_zero
  nodup {s c p} h := by
    obtain ⟨q, hm⟩ := h.models
    exact hm.sort.nodup_iff.1 hm.wf.nodup
  due h := h.due
  insert {s c p t d s' b} h ht h0 _ hc hins := by
    obtain ⟨q, hm⟩ := h.models
    obtain rfl := congrArg Prod.fst (Option.some.inj hins)
    have hexp : int64 (c + d) = c + d := int64_eq hc
    have hins := hm.insert (h.height_eq_zero.2 ht) c d
    rw [hexp] at hins
    exact ⟨⟨_, hins⟩, forall_mem_append.2 ⟨h.due, by simpa using h0⟩,
      forall_mem_append.2 ⟨h.bound, by simpa using hc⟩⟩
  remove {s c p t} h ht := by
    obtain ⟨q, hm⟩ := h.models
    have hpos : 0 < s.height t := by
      by_contra h0
      exact h.height_eq_zero.1 (by omega) ht
    exact ⟨⟨_, hm.remove hpos⟩, fun x hx => h.due x (mem_dropKey.1 hx).1,
      fun x hx => h.bound x (mem_dropKey.1 hx).1⟩
  gap h hf := h.nextGap hf
  advance {s c p dt} h hf _ hd := by
    refine ⟨h.models, fun x hx => ?_, h.bound⟩
    have hle := (h.nextGap hf).2.2 x hx
    have hdt : (dt : ℤ) ≤ zTimeoutQNextGap s c := hd
    omega
  popNone {s c p} h hpop := by
    obtain ⟨q, hm⟩ := h.models
    have hp := hm.popDue c
    rw [show zTimeoutQPopDue s c = none from hpop] at hp
    intro x hx
    have hlt := hp x ((hm.sort.mem_iff x).2 hx)
    have hd := h.due x hx
    have hb := h.bound x hx
    rwa [int64_eq] at hlt
  popSome {s c p t s'} h hpop := by
    obtain ⟨q, hm⟩ := h.models
    have hp := hm.popDue c
    rw [show zTimeoutQPopDue s c = some (t, s') from hpop] at hp
    obtain ⟨a, rest, rfl, hle, -, hm'⟩ := hp
    have hmem := (hm.sort.mem_iff _).1 mem_cons_self
    have hd := h.due _ hmem
    have hb := h.bound _ hmem
    rw [int64_eq] at hle
    obtain rfl : a = c := by omega
    exact ⟨hmem, hm.sort.head.2, ⟨_, hm'⟩, fun x hx => h.due x (mem_dropKey.1 hx).1,
      fun x hx => h.bound x (mem_dropKey.1 hx).1⟩

end Holds

theorem opStep_models {s s' : State τ} {op : Op τ} {es es' : List (OpEvent τ)}
    (h : Models L s (queued es) (arrived es)) (hs : opStep L s op = some (s', es')) :
    Models L s' (queued (es ++ es')) (arrived (es ++ es')) := by
  cases op with
  | reseed rng =>
    cases hs
    obtain ⟨⟨h1, h2, h3, h4, h5, h6, h7, h8⟩, hk, hsort⟩ := h
    rw [append_nil]
    exact ⟨⟨h1, h2, h3, h4, h5, h6, h7, h8⟩, hk, hsort⟩
  | insert now t dticks =>
    simp only [opStep] at hs
    split at hs
    case isFalse => simp at hs
    next ht =>
    cases hs
    simpa [OpEvent.apply, OpEvent.arrive] using h.insert ht now dticks
  | remove t =>
    simp only [opStep] at hs
    split at hs
    case isFalse => simp at hs
    next ht =>
    cases hs
    simpa [OpEvent.apply, OpEvent.arrive] using h.remove ht
  | popDue now =>
    have hpop := h.popDue now
    simp only [opStep] at hs
    split at hs
    · next t s₁ heq =>
      cases hs
      simp only [heq] at hpop
      obtain ⟨-, -, -, -, -, hm⟩ := hpop
      simpa [OpEvent.apply, OpEvent.arrive] using hm
    · cases hs
      simpa using h

theorem reaches_models {s : State τ} {es : List (OpEvent τ)}
    (h : Reaches (opSystem L) (fun _ _ => True) es s) :
    Models L s (queued es) (arrived es) :=
  Run.invariant (I := fun es s => Models L s (queued es) (arrived es)) .empty
    (fun _ _ _ _ _ hi _ hs => opStep_models hi hs) h

/-- In every run the chains are the levels of one sorted list, oldest first among equals, and
each operation does to the list what it should. -/
theorem runs_as_sorted_list {s : State τ} {es : List (OpEvent τ)}
    (h : Reaches (opSystem L) (fun _ _ => True) es s) :
    (∀ i < L.count, Chain (fun x => s.forward x i) none
        (((queued es).map Prod.fst).filter fun t => decide (i < s.height t))) ∧
      (∀ x ∈ queued es, s.absTicks x.1 = x.2) ∧ StableSort (queued es) (arrived es) ∧
      ((∀ t ∈ (queued es).map Prod.fst, s.height t ≤ s.slTop) ∧
        (s.slTop = 0 ∨ ∃ t ∈ (queued es).map Prod.fst, s.height t = s.slTop)) ∧
      (∀ c t d, s.height t = 0 → ((zTimeoutQInsert L s c t d).2 = true ↔
        (insertStable (t, int64 (c + d)) (queued es)).head? = some (t, int64 (c + d)))) ∧
      (∀ t, 0 < s.height t →
        (∀ i < s.height t, s.forward (skiplistPredecessorsOf s t skiplistUpdateInit i) i = some t) ∧
        Chain (fun x => (zTimeoutQRemove s t).1.forward x 0) none
          ((queued es).map Prod.fst |>.erase t)) ∧
      ∀ c, match zTimeoutQPopDue s c with
        | none => ∀ x ∈ queued es, int64 c < x.2
        | some (t, _) => ∃ a rest, queued es = (t, a) :: rest ∧ a ≤ int64 c ∧
            ∀ i < s.height t, s.forward none i = some t := by
  have hm := reaches_models h
  refine ⟨fun i _ => hm.wf.chain i, hm.keys, hm.sort, ⟨hm.wf.top_le, hm.wf.top_mem⟩,
    fun c t d ht => ?_, fun t ht => ⟨fun i hi => ?_, ?_⟩, fun c => ?_⟩
  · have hins := hm.insert ht c d
    have hfirst := hins.wf.first
    rw [head?_map] at hfirst
    have hret : (zTimeoutQInsert L s c t d).2 =
        decide (skiplistFirst (zTimeoutQInsert L s c t d).1 = some t) := rfl
    rw [hret, decide_eq_true_eq, hfirst]
    cases hh : (insertStable (t, int64 (c + d)) (queued es)).head? with
    | none => simp
    | some x =>
      have hx : x ∈ insertStable (t, int64 (c + d)) (queued es) := mem_of_mem_head? hh
      have hmem : (t, int64 (c + d)) ∈ insertStable (t, int64 (c + d)) (queued es) :=
        mem_insertStable.2 (.inl rfl)
      simp only [Option.map_some, Option.some.injEq]
      refine ⟨fun hxt => ?_, fun hxt => by rw [hxt]⟩
      exact inj_on_of_nodup_map hins.wf.nodup hx hmem hxt
  · obtain ⟨pre, post, hl⟩ := append_of_mem (hm.mem_iff.2 ht)
    have hwf := hm.wf
    rw [hl] at hwf
    have hc := hwf.chain i
    rw [level_append, level_cons_of_lt hi] at hc
    rw [hwf.predecessorsOf hi]
    exact hc.drop.1
  · have hrem := (hm.remove ht).wf
    have hc := hrem.chain 0
    rwa [hrem.level_zero, fst_dropKey_erase hm.wf.nodup] at hc
  · have hpop := hm.popDue c
    split at hpop
    · exact hpop
    · obtain ⟨a, rest, hq, ha, hf, -⟩ := hpop
      exact ⟨a, rest, hq, ha, hf⟩

def levels4 : Levels := ⟨4, by decide, by decide⟩

theorem runs_as_sorted_list_equal_keys : ∃ (es : List (OpEvent ℕ)) (s : State ℕ),
    Reaches (opSystem levels4) (fun _ _ => True) es s ∧
    queued es = [(1, 5), (3, 5), (4, 9)] ∧ StableSort (queued es) (arrived es) := by
  exact Reaches.of_exec_and
    [.insert 0 4 9, .insert 0 1 5, .reseed 7, .insert 2 2 3, .insert 5 3 0, .remove 2]
    (by decide +kernel) fun es s hrun => (runs_as_sorted_list hrun).2.2.1

end ZephyrRtos.Timeout.SkipList
