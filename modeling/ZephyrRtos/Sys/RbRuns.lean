import Mathlib.Data.Finset.Basic
import ZephyrRtos.Lib.Run
import ZephyrRtos.Sys.RbInsert
import ZephyrRtos.Sys.RbQuery
import ZephyrRtos.Sys.RbRemove

namespace ZephyrRtos.Sys

open Lib RbTree RbPath

inductive RbOp (α : Type)
  | insert (x : α)
  | remove (x : α)

variable {α : Type} {lt : α → α → Bool} {m : Rbnodes α} {tr : Rbtree α} {t : RbTree α} {x y : α}
  {n : ℕ}

inductive Rbtree.At (tr : Rbtree α) : α → ℕ → Prop
  | root {x : α} : tr.root = some x → tr.At x 1
  | child {x y : α} {n : ℕ} {s : Side} : tr.At y n → tr.nodes.child y s = some x → tr.At x (n + 1)

theorem Rbtree.Linked.exists_plug (h : tr.Linked t) (hat : tr.At x n) :
    ∃ p u, plug p u = t ∧ u.root = some x ∧ n = List.length p + 1 := by
  induction hat with
  | root hx => exact ⟨[], t, rfl, h.root ▸ hx, rfl⟩
  | @child x y n s _ hx ih =>
    obtain ⟨p, u, rfl, hy, rfl⟩ := ih
    have heq := eq_make s hy
    obtain ⟨-, hch, -⟩ := rep_make.1 (heq ▸ (rep_plug.1 h.rep).2 : Rep tr.nodes (make ..))
    refine ⟨⟨s, u.color, y, u.kid s.other⟩ :: p, u.kid s, ?_, hch.symm.trans hx, rfl⟩
    conv_rhs => rw [heq]
    rfl

theorem Rbtree.Linked.at_le (h : tr.Linked t) (hat : tr.At x n) : n ≤ tr.maxDepth := by
  obtain ⟨p, u, rfl, hx, rfl⟩ := h.exists_plug hat
  have hd := depth_of_root .left hx
  have := (depth_plug_le.1 h.deep).1
  omega

theorem Rbtree.at_of_mem (h : Rep tr.nodes t) (hroot : ∀ y, t.root = some y → ∃ n, tr.At y n)
    (hx : x ∈ t.toList) : ∃ n, tr.At x n := by
  induction t with
  | nil => simp [toList] at hx
  | node c l z r ihl ihr =>
    obtain ⟨n, hz⟩ := hroot z rfl
    obtain ⟨-, hl, hr, hrl, hrr⟩ := h
    simp only [toList, List.mem_append, List.mem_cons] at hx
    rcases hx with hx | rfl | hx
    · exact ihl hrl (fun y hy => ⟨_, .child hz (hl.trans hy)⟩) hx
    · exact ⟨n, hz⟩
    · exact ihr hrr (fun y hy => ⟨_, .child hz (hr.trans hy)⟩) hx

theorem Rbtree.Linked.notMem (h : tr.Linked t) (hx : ∀ n, ¬tr.At x n) : x ∉ t.toList := fun hm => by
  obtain ⟨n, hn⟩ := Rbtree.at_of_mem h.rep (fun y hy => ⟨1, .root (h.root.trans hy)⟩) hm
  exact hx n hn

variable [DecidableEq α]

def performOp (lt : α → α → Bool) (tr : Rbtree α) : RbOp α → Except RbFault (Rbtree α)
  | .insert x => rbInsert lt tr x
  | .remove x => rbRemove lt tr x

def rbSystem (lt : α → α → Bool) (m : Rbnodes α) :
    System (Except RbFault (Rbtree α)) (RbOp α) (RbOp α) where
  init := .ok ⟨none, 0, m⟩
  step
    | .ok tr, op => some (performOp lt tr op, [op])
    | .error _, _ => none

def InsertsNew : Except RbFault (Rbtree α) → RbOp α → Prop
  | .ok tr, .insert x => ∀ n, ¬tr.At x n
  | _, _ => True

def RemovesFromSome : Except RbFault (Rbtree α) → RbOp α → Prop
  | .ok tr, .remove _ => tr.root ≠ none
  | _, _ => True

def kept (es : List (RbOp α)) : Finset α :=
  es.foldl (fun s op => match op with
    | .insert x => insert x s
    | .remove x => s.erase x) ∅

theorem Rbtree.holds_empty : (⟨none, 0, m⟩ : Rbtree α).Holds nil :=
  ⟨⟨trivial, rfl, by simp [toList], by simp [depth]⟩, 0, ⟨rfl, rfl⟩, by simp⟩

theorem rbRemove_empty (h : tr.root = none) : rbRemove lt tr x = .error .null := by
  rw [rbRemove, findAndStack, Rbtree.stack, Cursor.set_eq (by simp), ok_bind, h]
  rfl

variable (lt) in
theorem Rbtree.Holds.perform (h : tr.Holds t) (hok : InsertsNew (.ok tr) op) :
    (∃ tr' t', performOp lt tr op = .ok tr' ∧ tr'.Holds t') ∨
      ∃ x, op = .remove x ∧ tr.root = none ∧ performOp lt tr op = .error .null := by
  cases op with
  | insert x =>
    obtain ⟨tr', t', -, heq, hh, -⟩ := rbInsert_spec lt h (h.notMem hok)
    exact .inl ⟨tr', t', heq, hh⟩
  | remove x =>
    cases hy : t.root with
    | none => exact .inr ⟨x, rfl, h.root.trans hy, rbRemove_empty (h.root.trans hy)⟩
    | some y =>
      rcases rbRemove_spec lt (x := x) h hy with ⟨heq, -⟩ | ⟨tr', t', -, -, heq, hh, -⟩
      · exact .inl ⟨tr, t, heq, h⟩
      · exact .inl ⟨tr', t', heq, hh⟩

section Sample

def natOrder (a b : ℕ) : Bool := decide (a < b)

def freshNodes : Rbnodes ℕ := ⟨fun _ _ => none, fun _ => .red⟩

theorem Rbtree.eq_of_at (hr : ∀ y, tr.root = some y → y = x) (hc : ∀ s, tr.nodes.child x s = none)
    (h : tr.At y n) : y = x := by
  induction h with
  | root h => exact hr _ h
  | child _ h ih =>
    rw [ih, hc] at h
    simp at h

theorem reaches_sample : Reaches (rbSystem natOrder freshNodes)
    (fun s op => InsertsNew s op ∧ RemovesFromSome s op) [.insert 2, .insert 1]
    (rbInsert natOrder ⟨some 2, 1, ((freshNodes.setChild 2 .left none).setChild 2 .right
      none).setColor 2 .black⟩ 1) := by
  change Run _ _ _ ([RbOp.insert 2] ++ [RbOp.insert 1]) _
  refine .head (a := RbOp.insert 2) ⟨fun n hn => ?_, trivial⟩ rfl
    (.single (.insert 1) ⟨fun n hn => ?_, trivial⟩ rfl)
  · exact absurd (Rbtree.eq_of_at (x := 0) nofun (fun _ => rfl) hn) (by decide)
  · exact absurd (Rbtree.eq_of_at (x := 2) (by simp) (fun s => by cases s <;> rfl) hn) (by decide)

end Sample

theorem holds_of_reaches (h : Reaches (rbSystem lt m) InsertsNew es (.ok tr)) :
    ∃ t, tr.Holds t := by
  refine Run.invariant (I := fun _ s => ∀ tr, s = .ok tr → ∃ t, tr.Holds t)
    (fun tr htr => ⟨nil, by cases htr; exact Rbtree.holds_empty⟩)
    (fun es s op s' es' hs hok hstep tr' htr' => ?_) h tr rfl
  cases s with
  | error e => simp [rbSystem] at hstep
  | ok tr =>
    obtain ⟨t, ht⟩ := hs tr rfl
    obtain ⟨rfl, -⟩ : performOp lt tr op = s' ∧ [op] = es' := by simpa [rbSystem] using hstep
    rcases ht.perform lt hok with ⟨tr1, t1, heq, hh⟩ | ⟨-, -, -, heq⟩
    · obtain rfl : tr1 = tr' := by simpa [heq] using htr'
      exact ⟨t1, hh⟩
    · simp [heq] at htr'

/-- In every run `max_depth` bounds the depth of every node, and no access to a path array is out
of bounds: only a removal from an empty tree faults. -/
theorem rb_max_depth_bounds {es : List (RbOp α)} {s : Except RbFault (Rbtree α)}
    (h : Reaches (rbSystem lt m) InsertsNew es s) :
    match s with
    | .ok tr => (∀ x n, tr.At x n → n ≤ tr.maxDepth) ∧
        ∃ l : List α, ∀ fuel, l.length < fuel → rbForEach tr fuel tr.foreachInit = .ok l
    | .error e => e = .null ∧ ∃ es' tr x, Reaches (rbSystem lt m) InsertsNew es' (.ok tr) ∧
        tr.root = none ∧ es = es' ++ [.remove x] := by
  cases s with
  | ok tr =>
    obtain ⟨t, ht⟩ := holds_of_reaches h
    exact ⟨fun x n => ht.at_le, t.toList, fun fuel => rbForEach_spec ht.toLinked⟩
  | error e =>
    cases h with
    | @snoc es es' s _ op hrun hok hstep =>
      cases s with
      | error e => simp [rbSystem] at hstep
      | ok tr =>
        obtain ⟨t, ht⟩ := holds_of_reaches hrun
        obtain ⟨heq, rfl⟩ : performOp lt tr op = .error e ∧ [op] = es' := by
          simpa [rbSystem] using hstep
        rcases ht.perform lt hok with ⟨tr1, -, heq', -⟩ | ⟨x, rfl, hnone, heq'⟩
        · simp [heq'] at heq
        · rw [heq'] at heq
          cases heq
          exact ⟨rfl, es, tr, x, hrun, hnone, rfl⟩

theorem rb_max_depth_bounds_sample : ∃ s, Reaches (rbSystem natOrder freshNodes) InsertsNew
    [.insert 2, .insert 1] s ∧
    match s with
    | .ok tr => (∀ x n, tr.At x n → n ≤ tr.maxDepth) ∧
        ∃ l : List ℕ, ∀ fuel, l.length < fuel → rbForEach tr fuel tr.foreachInit = .ok l
    | .error e => e = .null ∧ ∃ es' tr x, Reaches (rbSystem natOrder freshNodes) InsertsNew es'
        (.ok tr) ∧ tr.root = none ∧ [.insert 2, .insert 1] = es' ++ [.remove x] :=
  have h := reaches_sample.mono fun _ _ => And.left
  ⟨_, h, rb_max_depth_bounds h⟩

section Order

structure StrictOrder (lt : α → α → Bool) : Prop where
  irrefl : ∀ a, lt a a = false
  trans : ∀ a b c, lt a b = true → lt b c = true → lt a c = true
  total : ∀ a b, a ≠ b → lt a b = true ∨ lt b a = true

theorem strictOrder_natOrder : StrictOrder natOrder where
  irrefl := by simp [natOrder]
  trans a b c hab hbc := by
    simp only [natOrder, decide_eq_true_eq] at hab hbc ⊢
    omega
  total a b hab := by
    simp only [natOrder, decide_eq_true_eq]
    omega

variable {l : List α}

section

omit [DecidableEq α]

theorem StrictOrder.ne (h : StrictOrder lt) (hxy : lt x y = true) : x ≠ y := by
  rintro rfl
  simp [h.irrefl] at hxy

theorem StrictOrder.asymm (h : StrictOrder lt) (hxy : lt x y = true) : ¬lt y x = true := fun hyx =>
  h.ne (h.trans _ _ _ hxy hyx) rfl

theorem StrictOrder.lt_of_not (h : StrictOrder lt) (hne : x ≠ y) (hn : ¬lt x y = true) :
    lt y x = true := (h.total x y hne).resolve_left hn

theorem dirTo_eq_left : dirTo lt x y = .left ↔ lt x y = true := by
  rw [dirTo]
  split <;> simp_all

theorem dirTo_eq_right : dirTo lt x y = .right ↔ ¬lt x y = true := by
  rw [dirTo]
  split <;> simp_all

theorem dirFrom_eq_right : dirFrom lt x y = .right ↔ lt y x = true := by
  rw [dirFrom]
  split <;> simp_all

theorem dirFrom_eq_left : dirFrom lt x y = .left ↔ ¬lt y x = true := by
  rw [dirFrom]
  split <;> simp_all

theorem StrictOrder.guides_to (h : StrictOrder lt) (hl : l.Pairwise (lt · ·)) :
    Guides (dirTo lt x) x l := by
  refine hl.imp fun {a b} hab => ⟨fun _ ha => ?_, fun hb hb' => ?_⟩
  · have := h.trans _ _ _ (dirTo_eq_left.1 ha) hab
    exact ⟨(h.ne this).symm, dirTo_eq_left.2 this⟩
  · have := h.trans _ _ _ hab (h.lt_of_not hb.symm (dirTo_eq_right.1 hb'))
    exact ⟨h.ne this, dirTo_eq_right.2 (h.asymm this)⟩

theorem StrictOrder.guides_from (h : StrictOrder lt) (hl : l.Pairwise (lt · ·)) :
    Guides (dirFrom lt x) x l := by
  refine hl.imp fun {a b} hab => ⟨fun hax ha => ?_, fun _ hb => ?_⟩
  · have := h.trans _ _ _ (h.lt_of_not hax (dirFrom_eq_left.1 ha)) hab
    exact ⟨(h.ne this).symm, dirFrom_eq_left.2 (h.asymm this)⟩
  · have := h.trans _ _ _ hab (dirFrom_eq_right.1 hb)
    exact ⟨h.ne this, dirFrom_eq_right.2 this⟩

theorem StrictOrder.insert_sorted (h : StrictOrder lt) (hp : Leads (dirTo lt x) x p)
    (hl : (before p ++ after p).Pairwise (lt · ·)) :
    (before p ++ x :: after p).Pairwise (lt · ·) := by
  rw [List.pairwise_append] at hl ⊢
  obtain ⟨h1, h2, h3⟩ := hl
  refine ⟨h1, List.pairwise_cons.2 ⟨fun b hb => dirTo_eq_left.1 (hp.2 b hb).2, h2⟩, fun a ha b hb => ?_⟩
  rcases List.mem_cons.1 hb with rfl | hb
  · exact h.lt_of_not (hp.1 a ha).1.symm (dirTo_eq_right.1 (hp.1 a ha).2)
  · exact h3 a ha b hb

end

structure Rbtree.Sorts (lt : α → α → Bool) (tr : Rbtree α) (t : RbTree α) (s : Finset α) : Prop
    extends tr.Holds t where
  sorted : t.toList.Pairwise (lt · ·)
  mem_iff : ∀ x, x ∈ t.toList ↔ x ∈ s

theorem kept_snoc (es : List (RbOp α)) (op : RbOp α) : kept (es ++ [op]) =
    match op with
    | .insert x => insert x (kept es)
    | .remove x => (kept es).erase x := by
  rw [kept, List.foldl_append]
  rfl

theorem Rbtree.Sorts.perform (hlt : StrictOrder lt) (h : tr.Sorts lt t (kept es))
    (hnew : InsertsNew (.ok tr) op) (hsome : RemovesFromSome (.ok tr) op) :
    ∃ tr' t', performOp lt tr op = .ok tr' ∧ tr'.Sorts lt t' (kept (es ++ [op])) := by
  cases op with
  | insert x =>
    obtain ⟨tr', t', q, heq, hh, hlist, hlist', hleads⟩ := rbInsert_spec lt h.toHolds (h.notMem hnew)
    refine ⟨tr', t', heq, hh, ?_, fun y => ?_⟩
    · rw [hlist']
      exact hlt.insert_sorted (hleads (hlt.guides_to h.sorted)) (hlist ▸ h.sorted)
    have := h.mem_iff y
    rw [hlist] at this
    rw [hlist', kept_snoc]
    simp only [List.mem_append, List.mem_cons, Finset.mem_insert] at this ⊢
    rw [← this]
    exact or_left_comm
  | remove x =>
    cases hy : t.root with
    | none => exact (hsome (h.root.trans hy)).elim
    | some y =>
      rw [kept_snoc]
      rcases rbRemove_spec lt h.toHolds hy with
        ⟨heq, hx⟩ | ⟨tr', t', l, r, heq, hh, hlist, hlist'⟩
      · refine ⟨tr, t, heq, h.toHolds, h.sorted, fun y => ?_⟩
        have hx := hx (hlt.guides_to h.sorted)
        rw [Finset.mem_erase, h.mem_iff]
        refine ⟨fun hm => ⟨?_, hm⟩, fun hm => hm.2⟩
        rintro rfl
        exact hx ((h.mem_iff y).2 hm)
      refine ⟨tr', t', heq, hh, ?_, fun y => ?_⟩
      · rw [hlist']
        have := h.sorted
        rw [hlist] at this
        exact this.sublist ((List.sublist_cons_self x r).append_left l)
      have hnd := h.nodup
      have hm := h.mem_iff y
      rw [hlist] at hnd hm
      have hx := (List.nodup_cons.1 (List.nodup_middle.1 hnd)).1
      rw [hlist', Finset.mem_erase, ← hm, List.mem_append, List.mem_append, List.mem_cons]
      refine ⟨fun hy => ⟨?_, hy.imp_right .inr⟩, fun ⟨hne, hy⟩ => hy.imp_right fun hy =>
        hy.resolve_left hne⟩
      rintro rfl
      exact hx (List.mem_append.2 hy)

def EndOf (lt : α → α → Bool) (side : Side) (s : Finset α) : Option α → Prop
  | none => s = ∅
  | some x => x ∈ s ∧ ∀ y ∈ s, y ≠ x → match side with
    | .left => lt x y = true
    | .right => lt y x = true

theorem endOf_spec (hl : l.Pairwise (lt · ·)) (hm : ∀ x, x ∈ l ↔ x ∈ s) (side : Side) :
    EndOf lt side s (endOf side l) := by
  cases side with
  | left =>
    cases l with
    | nil => exact Finset.eq_empty_of_forall_notMem fun x hx => by simpa using (hm x).2 hx
    | cons x l =>
      refine ⟨(hm x).1 (by simp), fun y hy hne => (List.pairwise_cons.1 hl).1 y ?_⟩
      exact (List.mem_cons.1 ((hm y).2 hy)).resolve_left hne
  | right =>
    rcases List.eq_nil_or_concat l with rfl | ⟨l, x, rfl⟩
    · exact Finset.eq_empty_of_forall_notMem fun x hx => by simpa using (hm x).2 hx
    · rw [List.concat_eq_append] at hl hm ⊢
      rw [endOf, List.getLast?_concat]
      refine ⟨(hm x).1 (by simp), fun y hy hne => (List.pairwise_append.1 hl).2.2 y ?_ x (by simp)⟩
      have := (hm y).2 hy
      simpa [hne] using this

end Order

end ZephyrRtos.Sys
