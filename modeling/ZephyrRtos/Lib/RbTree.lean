import Mathlib.Algebra.Group.Nat.Defs
import Mathlib.Data.List.Nodup

/-! Red-black trees over a path: what repairing one extra red or one missing black does
to the order, the balance and the depth of the whole tree. -/

namespace ZephyrRtos.Lib

inductive RbColor
  | red
  | black
  deriving DecidableEq

inductive Side
  | left
  | right
  deriving DecidableEq

def Side.other : Side → Side
  | left => right
  | right => left

@[simp] theorem Side.other_other (s : Side) : s.other.other = s := by cases s <;> rfl

@[simp] theorem Side.other_ne (s : Side) : s.other ≠ s := by cases s <;> decide

theorem Side.eq_other_of_ne {s s' : Side} (h : s ≠ s') : s = s'.other := by
  cases s <;> cases s' <;> simp_all [Side.other]

inductive RbTree (α : Type)
  | nil
  | node (c : RbColor) (l : RbTree α) (x : α) (r : RbTree α)

namespace RbTree

variable {α : Type} {s s' : Side} {c : RbColor} {x : α} {t a b : RbTree α} {n H D : ℕ}

def make (s : Side) (c : RbColor) (x : α) (near far : RbTree α) : RbTree α :=
  match s with
  | .left => .node c near x far
  | .right => .node c far x near

def kid (s : Side) : RbTree α → RbTree α
  | nil => nil
  | node _ l _ r => match s with
    | .left => l
    | .right => r

def root : RbTree α → Option α
  | nil => none
  | node _ _ x _ => some x

def color : RbTree α → RbColor
  | nil => .black
  | node c _ _ _ => c

def paint (c : RbColor) : RbTree α → RbTree α
  | nil => nil
  | node _ l x r => node c l x r

def toList : RbTree α → List α
  | nil => []
  | node _ l x r => l.toList ++ x :: r.toList

def depth : RbTree α → ℕ
  | nil => 0
  | node _ l _ r => max l.depth r.depth + 1

/-- No red node has a red child, and every path down meets `n` black nodes. -/
def Balanced : RbTree α → ℕ → Prop
  | nil, n => n = 0
  | node .red l _ r, n => l.color = .black ∧ r.color = .black ∧ l.Balanced n ∧ r.Balanced n
  | node .black _ _ _, 0 => False
  | node .black l _ r, n + 1 => l.Balanced n ∧ r.Balanced n

theorem make_other (s : Side) (c : RbColor) (x : α) (a b : RbTree α) :
    make s.other c x a b = make s c x b a := by
  cases s <;> rfl

theorem eq_make (s : Side) (h : t.root = some x) :
    t = make s t.color x (t.kid s) (t.kid s.other) := by
  cases t with
  | nil => simp [root] at h
  | node c l y r =>
    obtain rfl : y = x := by simpa [root] using h
    cases s <;> rfl

theorem root_eq_none : t.root = none ↔ t = nil := by
  cases t <;> simp [root]

@[simp] theorem root_make : (make s c x a b).root = some x := by cases s <;> rfl

@[simp] theorem color_make : (make s c x a b).color = c := by cases s <;> rfl

@[simp] theorem kid_make : (make s c x a b).kid s = a := by cases s <;> rfl

@[simp] theorem kid_other_make : (make s c x a b).kid s.other = b := by cases s <;> rfl

@[simp] theorem paint_make (c' : RbColor) : (make s c x a b).paint c' = make s c' x a b := by
  cases s <;> rfl

@[simp] theorem depth_make : (make s c x a b).depth = max a.depth b.depth + 1 := by
  cases s
  · rfl
  · exact congrArg (· + 1) (Nat.max_comm _ _)

@[simp] theorem mem_toList_make :
    y ∈ (make s c x a b).toList ↔ y = x ∨ y ∈ a.toList ∨ y ∈ b.toList := by
  cases s <;> simp only [make, toList, List.mem_append, List.mem_cons]
  · exact or_left_comm
  · rw [or_left_comm, or_comm (a := y ∈ b.toList)]

theorem toList_make : (make s c x a b).toList =
    match s with
    | .left => a.toList ++ x :: b.toList
    | .right => b.toList ++ x :: a.toList := by
  cases s <;> rfl

theorem depth_of_root (s : Side) (h : t.root = some x) :
    t.depth = max (t.kid s).depth (t.kid s.other).depth + 1 := by
  conv_lhs => rw [eq_make s h, depth_make]

theorem mem_of_root (h : t.root = some x) : x ∈ t.toList := by
  cases t with
  | nil => simp [root] at h
  | node c l y r =>
    obtain rfl : y = x := by simpa [root] using h
    simp [toList]

theorem toList_make_perm : (make s c x a b).toList.Perm (x :: (a.toList ++ b.toList)) := by
  cases s
  · exact List.perm_middle
  · exact List.perm_middle.trans (List.perm_append_comm.cons x)

@[simp] theorem toList_paint (c' : RbColor) : (t.paint c').toList = t.toList := by cases t <;> rfl

@[simp] theorem depth_paint (c' : RbColor) : (t.paint c').depth = t.depth := by cases t <;> rfl

@[simp] theorem root_paint (c' : RbColor) : (t.paint c').root = t.root := by cases t <;> rfl

theorem color_paint_black : (t.paint .black).color = .black := by cases t <;> rfl

theorem root_isSome_of_red (h : t.color = .red) : ∃ x, t.root = some x := by
  cases t with
  | nil => simp [color] at h
  | node c l x r => exact ⟨x, rfl⟩

theorem length_toList_lt : t.toList.length < 2 ^ t.depth := by
  induction t with
  | nil => simp [toList, depth]
  | node c l x r ihl ihr =>
    have hl := Nat.pow_le_pow_right (n := 2) (by omega) (Nat.le_max_left l.depth r.depth)
    have hr := Nat.pow_le_pow_right (n := 2) (by omega) (Nat.le_max_right l.depth r.depth)
    simp only [toList, depth, List.length_append, List.length_cons]
    omega

@[simp] theorem balanced_nil : (nil : RbTree α).Balanced n ↔ n = 0 := .rfl

@[simp] theorem balanced_red : (make s .red x a b).Balanced n ↔
    a.color = .black ∧ b.color = .black ∧ a.Balanced n ∧ b.Balanced n := by
  cases s
  · rfl
  · exact ⟨fun ⟨h1, h2, h3, h4⟩ => ⟨h2, h1, h4, h3⟩, fun ⟨h1, h2, h3, h4⟩ => ⟨h2, h1, h4, h3⟩⟩

theorem balanced_black : (make s .black x a b).Balanced n ↔
    ∃ k, n = k + 1 ∧ a.Balanced k ∧ b.Balanced k := by
  cases n with
  | zero => cases s <;> simp [make, Balanced]
  | succ n =>
    cases s
    · simp [make, Balanced]
    · simp [make, Balanced, and_comm]

@[simp] theorem balanced_succ : (make s .black x a b).Balanced (n + 1) ↔
    a.Balanced n ∧ b.Balanced n := by
  simp [balanced_black]

theorem Balanced.paint_black (h : t.Balanced n) (hr : t.color = .red) :
    (t.paint .black).Balanced (n + 1) := by
  obtain ⟨x, hx⟩ := root_isSome_of_red hr
  rw [eq_make .left hx] at h ⊢
  simp_all

theorem Balanced.paint_red (h : t.Balanced (n + 1)) (hb : t.color = .black)
    (hl : (t.kid s).color = .black) (hr : (t.kid s.other).color = .black) :
    (t.paint .red).Balanced n := by
  cases hx : t.root with
  | none =>
    rw [root_eq_none.1 hx] at h
    simp at h
  | some x =>
    rw [eq_make s hx] at h ⊢
    simp_all

theorem Balanced.only_child (h : t.Balanced n) (hx : t.root = some x) (hs : t.kid s = nil)
    (hy : (t.kid s.other).root = some y) : t.color = .black ∧ n = 1 ∧
      (t.kid s.other).Balanced 0 ∧ (t.kid s.other).color = .red := by
  rw [eq_make s hx, hs] at h
  cases hc : t.color with
  | red =>
    rw [hc, balanced_red] at h
    obtain ⟨-, hcol, h0, hb⟩ := h
    rw [balanced_nil.1 h0, eq_make .left hy, hcol, balanced_black] at hb
    omega
  | black =>
    rw [hc, balanced_black] at h
    obtain ⟨k, rfl, h0, hb⟩ := h
    rw [balanced_nil.1 h0] at hb
    refine ⟨rfl, by rw [balanced_nil.1 h0], hb, ?_⟩
    cases hcol : (t.kid s.other).color with
    | red => rfl
    | black =>
      rw [eq_make .left hy, hcol, balanced_black] at hb
      omega

def shape : RbTree α → RbTree Unit
  | nil => nil
  | node c l _ r => node c l.shape () r.shape

theorem shape_make : (make s c x a b).shape = make s c () a.shape b.shape := by cases s <;> rfl

theorem color_shape : t.shape.color = t.color := by cases t <;> rfl

theorem depth_shape : t.shape.depth = t.depth := by
  induction t with
  | nil => rfl
  | node c l x r ihl ihr => rw [shape, depth, ihl, ihr, depth]

theorem balanced_shape : t.shape.Balanced n ↔ t.Balanced n := by
  induction t generalizing n with
  | nil => rfl
  | node c l x r ihl ihr =>
    cases c with
    | red => simp [shape, Balanced, color_shape, ihl, ihr]
    | black => cases n <;> simp only [shape, Balanced, ihl, ihr]

def Proper (t : RbTree α) (H : ℕ) : Prop := t.Balanced H ∧ t.color = .black

theorem proper_shape : t.shape.Proper H ↔ t.Proper H := by
  rw [Proper, Proper, balanced_shape, color_shape]

theorem Balanced.depth_le (h : t.Balanced n) :
    t.depth ≤ 2 * n + 1 ∧ (t.color = .black → t.depth ≤ 2 * n) := by
  induction t generalizing n with
  | nil => simp [depth]
  | node c l x r ihl ihr =>
    cases c with
    | red =>
      obtain ⟨hl, hr, h1, h2⟩ := h
      have h3 := (ihl h1).2 hl
      have h4 := (ihr h2).2 hr
      exact ⟨by simp only [depth]; omega, by simp [color]⟩
    | black =>
      cases n with
      | zero => exact h.elim
      | succ n =>
        have h3 := (ihl h.1).1
        have h4 := (ihr h.2).1
        refine ⟨?_, fun _ => ?_⟩ <;> simp only [depth] <;> omega

end RbTree

/-- A node above the point of interest, which is on side `side` of it. -/
structure RbFrame (α : Type) where
  side : Side
  color : RbColor
  node : α
  sib : RbTree α

/-- The nodes above a point of a tree, the nearest first. -/
abbrev RbPath (α : Type) := List (RbFrame α)

variable {α : Type} {p q : RbPath α} {f : RbFrame α} {t u : RbTree α} {n H D : ℕ}

def RbFrame.attach (f : RbFrame α) (t : RbTree α) : RbTree α :=
  .make f.side f.color f.node t f.sib

namespace RbPath

open List RbTree

def plug : RbPath α → RbTree α → RbTree α
  | [], t => t
  | f :: p, t => plug p (f.attach t)

def before : RbPath α → List α
  | [] => []
  | f :: p => match f.side with
    | .left => before p
    | .right => before p ++ f.sib.toList ++ [f.node]

def after : RbPath α → List α
  | [] => []
  | f :: p => match f.side with
    | .left => f.node :: f.sib.toList ++ after p
    | .right => after p

def TakesRed : RbPath α → Prop
  | [] => False
  | f :: _ => f.color = .black

/-- A tree of black height `n` in the hole makes one of black height `H`. -/
def Admits : RbPath α → ℕ → ℕ → Prop
  | [], n, H => n = H
  | f :: p, n, H => match f.color with
    | .red => f.sib.color = .black ∧ f.sib.Balanced n ∧ TakesRed p ∧ Admits p n H
    | .black => f.sib.Balanced n ∧ Admits p (n + 1) H

def Within : RbPath α → ℕ → Prop
  | [], _ => True
  | f :: p, D => List.length p + 1 + f.sib.depth ≤ D ∧ Within p D

@[simp] theorem plug_nil : plug [] t = t := rfl

@[simp] theorem plug_cons : plug (f :: p) t = plug p (f.attach t) := rfl

theorem plug_append : plug (q ++ p) t = plug p (plug q t) := by
  induction q generalizing t with
  | nil => rfl
  | cons f q ih => exact ih

theorem toList_plug : (plug p t).toList = before p ++ t.toList ++ after p := by
  induction p generalizing t with
  | nil => simp [before, after]
  | cons f p ih =>
    rw [plug_cons, ih, RbFrame.attach, toList_make]
    cases hs : f.side <;> simp [before, after, hs]

def nodes : RbPath α → List α
  | [] => []
  | f :: p => f.node :: (f.sib.toList ++ nodes p)

theorem toList_plug_perm : (plug p t).toList.Perm (t.toList ++ nodes p) := by
  induction p generalizing t with
  | nil => simp [nodes]
  | cons f p ih =>
    refine (ih).trans ?_
    refine (toList_make_perm.append_right _).trans ?_
    simp only [cons_append, append_assoc]
    exact perm_middle.symm

theorem after_append : after (q ++ p) = after q ++ after p := by
  induction q with
  | nil => rfl
  | cons f q ih => cases hs : f.side <;> simp [after, hs, ih]

theorem nodes_append : nodes (q ++ p) = nodes q ++ nodes p := by
  induction q with
  | nil => rfl
  | cons f q ih => simp [nodes, ih]

theorem plug_congr (h : t.toList = u.toList) : (plug p t).toList = (plug p u).toList := by
  rw [toList_plug, toList_plug, h]

theorem shape_plug (h : t.shape = u.shape) : (plug p t).shape = (plug p u).shape := by
  induction p generalizing t u with
  | nil => exact h
  | cons f p ih => exact ih (by rw [RbFrame.attach, RbFrame.attach, shape_make, shape_make, h])

theorem depth_plug_le : (plug p t).depth ≤ D ↔ p.length + t.depth ≤ D ∧ Within p D := by
  induction p generalizing t with
  | nil => simp [Within]
  | cons f p ih =>
    rw [plug_cons, ih, RbFrame.attach, depth_make, length_cons]
    constructor
    · rintro ⟨h1, h2⟩
      exact ⟨by omega, by omega, h2⟩
    · rintro ⟨h1, h2, h3⟩
      exact ⟨by omega, h3⟩

theorem admits_red (hc : f.color = .red) : Admits (f :: p) n H ↔
    f.sib.color = .black ∧ f.sib.Balanced n ∧ TakesRed p ∧ Admits p n H := by
  rw [Admits, hc]

theorem admits_black (hc : f.color = .black) :
    Admits (f :: p) n H ↔ f.sib.Balanced n ∧ Admits p (n + 1) H := by
  rw [Admits, hc]

theorem Admits.red_pair (h : Admits (f :: g :: p) n H) (hf : f.color = .red) :
    g.color = .black ∧ f.sib.color = .black ∧ f.sib.Balanced n ∧ g.sib.Balanced n ∧
      Admits p (n + 1) H := by
  obtain ⟨h1, h2, h3, h4⟩ := (admits_red hf).1 h
  have hg : g.color = .black := h3
  obtain ⟨h5, h6⟩ := (admits_black hg).1 h4
  exact ⟨hg, h1, h2, h5, h6⟩

theorem Admits.length_le (h : Admits p n H) :
    p.length + 2 * n ≤ 2 * H ∧ (TakesRed p → p.length + 1 + 2 * n ≤ 2 * H) := by
  induction p generalizing n with
  | nil =>
    obtain rfl : n = H := h
    exact ⟨by simp, False.elim⟩
  | cons f p ih =>
    cases hc : f.color with
    | red =>
      rw [admits_red hc] at h
      have := (ih h.2.2.2).2 h.2.2.1
      exact ⟨by simp only [length_cons]; omega, by simp [TakesRed, hc]⟩
    | black =>
      rw [admits_black hc] at h
      have := (ih h.2).1
      exact ⟨by simp only [length_cons]; omega, fun _ => by simp only [length_cons]; omega⟩

theorem Admits.plug (h : Admits p n H) (ht : t.Balanced n) (hr : t.color = .red → TakesRed p) :
    (plug p t).Proper H := by
  induction p generalizing n t with
  | nil =>
    obtain rfl : n = H := h
    refine ⟨ht, ?_⟩
    cases hc : t.color with
    | red => exact (hr hc).elim
    | black => exact hc
  | cons f p ih =>
    cases hc : f.color with
    | red =>
      rw [admits_red hc] at h
      refine ih h.2.2.2 ?_ fun _ => h.2.2.1
      rw [RbFrame.attach, hc, balanced_red]
      refine ⟨?_, h.1, ht, h.2.1⟩
      cases hc' : t.color with
      | red =>
        have := hr hc'
        simp [TakesRed, hc] at this
      | black => rfl
    | black =>
      rw [admits_black hc] at h
      refine ih h.2 ?_ (by simp [RbFrame.attach, hc])
      rw [RbFrame.attach, hc, balanced_succ]
      exact ⟨ht, h.1⟩

theorem admits_of_plug (h : (plug p t).Proper H) :
    ∃ n, Admits p n H ∧ t.Balanced n ∧ (t.color = .red → TakesRed p) := by
  induction p generalizing t with
  | nil => exact ⟨H, rfl, h.1, by simp [show t.color = .black from h.2]⟩
  | cons f p ih =>
    obtain ⟨n, hp, hb, hr⟩ := ih h
    rw [RbFrame.attach] at hb
    cases hc : f.color with
    | red =>
      rw [hc, balanced_red] at hb
      refine ⟨n, ?_, hb.2.2.1, by simp [hb.1]⟩
      rw [admits_red hc]
      exact ⟨hb.2.1, hb.2.2.2, hr (by simp [RbFrame.attach, hc]), hp⟩
    | black =>
      rw [hc, balanced_black] at hb
      obtain ⟨k, rfl, h1, h2⟩ := hb
      refine ⟨k, ?_, h1, fun _ => hc⟩
      rw [admits_black hc]
      exact ⟨h2, hp⟩

end RbPath

section Repair

open RbTree RbPath

/-- The root `x` of `t` and the node above it change places. -/
def RbFrame.rotated (f : RbFrame α) (t : RbTree α) (x : α) : RbTree α :=
  make f.side t.color x (t.kid f.side) (make f.side f.color f.node (t.kid f.side.other) f.sib)

theorem toList_rotated (hx : t.root = some x) : (f.rotated t x).toList = (f.attach t).toList := by
  rw [RbFrame.rotated, RbFrame.attach]
  conv_rhs => rw [eq_make f.side hx]
  cases f.side <;> simp [toList_make]

/-- The root of `t` comes up between its parent and its grandparent. -/
def hoist (f g : RbFrame α) : RbTree α → RbTree α
  | nil => nil
  | node _ l x r =>
    make g.side .black x (make f.side .red f.node (kid f.side.other (node .red l x r)) f.sib)
      (make g.side .red g.node (kid f.side (node .red l x r)) g.sib)

theorem hoist_eq (hx : t.root = some x) :
    hoist f g t = make g.side .black x (make f.side .red f.node (t.kid f.side.other) f.sib)
      (make g.side .red g.node (t.kid f.side) g.sib) := by
  cases t with
  | nil => simp [root] at hx
  | node c l y r =>
    obtain rfl : y = x := by simpa [root] using hx
    rfl

/-- The tree `t`, with a red root, goes into the hole of `p`: reds are pushed up by
recolouring until a rotation or the root absorbs them. -/
def repairRed : RbPath α → RbTree α → RbTree α
  | [], t => t.paint .black
  | [f], t => plug [f] t
  | f :: g :: p, t =>
    if f.color = .black then plug (f :: g :: p) t
    else if g.sib.color = .red then
      repairRed p (make g.side .red g.node (make f.side .black f.node t f.sib) (g.sib.paint .black))
    else if f.side = g.side then
      plug p (make g.side .black f.node t (make g.side .red g.node f.sib g.sib))
    else plug p (hoist f g t)

theorem toList_repairRed (p : RbPath α) (ht : t.root = some x) :
    (repairRed p t).toList = (plug p t).toList := by
  induction p, t using repairRed.induct generalizing x with
  | case1 t => simp [repairRed]
  | case2 f t => rfl
  | case3 f g p t hf => rw [repairRed, if_pos hf]
  | case4 f g p t hf hg ih =>
    rw [repairRed, if_neg hf, if_pos hg, ih (x := g.node) (by simp)]
    refine plug_congr ?_
    cases hs : f.side <;> cases hs' : g.side <;> simp [RbFrame.attach, toList_make, hs, hs']
  | case5 f g p t hf hg hs =>
    rw [repairRed, if_neg hf, if_neg hg, if_pos hs]
    refine plug_congr ?_
    cases hs' : g.side <;> simp [RbFrame.attach, toList_make, hs, hs']
  | case6 f g p t hf hg hs =>
    rw [repairRed, if_neg hf, if_neg hg, if_neg hs]
    refine plug_congr ?_
    cases t with
    | nil => simp [root] at ht
    | node c l y r =>
      cases hs' : f.side <;> cases hs'' : g.side <;>
        simp_all [RbFrame.attach, toList_make, toList, hoist, kid, Side.other]

/-- The path to the red node alternates in colour below the frames in `p`: from there down it has
`2 * n + 1` nodes. -/
theorem proper_repairRed (hp : Admits p n H) (ht : t.Balanced n) (hr : t.color = .red)
    (hD : (plug p t).depth ≤ D) (hpath : p.length + 2 * n + 1 ≤ D) :
    ∃ H', (repairRed p t).Proper H' ∧ (H' = H ∨ H' = H + 1 ∧ 2 * H' ≤ D + 1) ∧
      (repairRed p t).depth ≤ D := by
  induction p, t using repairRed.induct generalizing n with
  | case1 t =>
    obtain rfl : n = H := hp
    refine ⟨n + 1, ⟨ht.paint_black hr, color_paint_black⟩, .inr ⟨rfl, ?_⟩, ?_⟩
    · omega
    · simpa [repairRed] using hD
  | case2 f t =>
    have htakes : TakesRed [f] := by
      cases hc : f.color with
      | red => exact ((admits_red hc).1 hp).2.2.1.elim
      | black => exact hc
    exact ⟨H, hp.plug ht fun _ => htakes, .inl rfl, hD⟩
  | case3 f g p t hf =>
    rw [repairRed, if_pos hf]
    exact ⟨H, hp.plug ht fun _ => hf, .inl rfl, hD⟩
  | case4 f g p t hf hg ih =>
    obtain ⟨-, -, hfb, hgb, hp'⟩ := hp.red_pair (by cases h : f.color <;> simp_all)
    rw [repairRed, if_neg hf, if_pos hg]
    refine ih hp' ?_ (by simp) ?_ ?_
    · simp only [balanced_red, color_make, balanced_succ, color_paint_black, true_and]
      exact ⟨⟨ht, hfb⟩, hgb.paint_black hg⟩
    · simpa [depth_plug_le, RbFrame.attach] using hD
    · simp only [List.length_cons] at hpath
      omega
  | case5 f g p t hf hg hs =>
    obtain ⟨-, hfs, hfb, hgb, hp'⟩ := hp.red_pair (by cases h : f.color <;> simp_all)
    have hgs : g.sib.color = .black := by cases h : g.sib.color <;> simp_all
    rw [repairRed, if_neg hf, if_neg hg, if_pos hs]
    refine ⟨H, hp'.plug ?_ (by simp), .inl rfl, ?_⟩
    · simp only [balanced_succ, balanced_red]
      exact ⟨ht, hfs, hgs, hfb, hgb⟩
    · have hdeep := hgb.depth_le.2 hgs
      simp only [plug_cons, depth_plug_le, RbFrame.attach, depth_make, List.length_cons] at hD hpath ⊢
      exact ⟨by omega, hD.2⟩
  | case6 f g p t hf hg hs =>
    obtain ⟨-, hfs, hfb, hgb, hp'⟩ := hp.red_pair (by cases h : f.color <;> simp_all)
    have hgs : g.sib.color = .black := by cases h : g.sib.color <;> simp_all
    obtain ⟨x, hx⟩ := root_isSome_of_red hr
    rw [repairRed, if_neg hf, if_neg hg, if_neg hs, hoist_eq hx]
    rw [eq_make f.side hx, hr, balanced_red] at ht
    refine ⟨H, hp'.plug ?_ (by simp), .inl rfl, ?_⟩
    · simp only [balanced_succ, balanced_red]
      exact ⟨⟨ht.2.1, hfs, ht.2.2.2, hfb⟩, ht.1, hgs, ht.2.2.1, hgb⟩
    · have hdeep := hgb.depth_le.2 hgs
      rw [eq_make f.side hx] at hD
      simp only [plug_cons, depth_plug_le, RbFrame.attach, depth_make, List.length_cons] at hD hpath ⊢
      exact ⟨by omega, hD.2⟩

def RbFrame.Poor (f : RbFrame α) : Prop :=
  (f.sib.kid f.side).color = .black ∧ (f.sib.kid f.side.other).color = .black

instance (f : RbFrame α) : Decidable f.Poor := inferInstanceAs (Decidable (_ ∧ _))

/-- A red child of the black sibling makes up for the black that `t` misses. -/
def borrow (f : RbFrame α) (t : RbTree α) : RbTree α :=
  let inner := f.sib.kid f.side
  let outer := f.sib.kid f.side.other
  match f.sib.root, inner.root with
  | none, _ => f.attach t
  | some s, i =>
    if outer.color = .red then
      make f.side f.color s (make f.side .black f.node t inner) (outer.paint .black)
    else i.elim (f.attach t) fun i =>
      make f.side f.color i (make f.side .black f.node t (inner.kid f.side))
        (make f.side .black s (inner.kid f.side.other) outer)

def settle (f : RbFrame α) (t : RbTree α) : RbTree α :=
  if f.Poor then make f.side .black f.node t (f.sib.paint .red) else borrow f t

/-- A red sibling comes up, and the frame gets a black one. -/
def lower (f : RbFrame α) (t : RbTree α) : RbTree α :=
  f.sib.root.elim (f.attach t) fun s =>
    make f.side .black s (settle ⟨f.side, .red, f.node, f.sib.kid f.side⟩ t) (f.sib.kid f.side.other)

/-- The tree `t` goes into the hole of `p` with one black too few. -/
def repairBlack : RbPath α → RbTree α → RbTree α
  | [], t => t
  | f :: p, t =>
    if f.sib.color = .red then plug p (lower f t)
    else if f.Poor ∧ f.color = .black then repairBlack p (settle f t)
    else plug p (settle f t)

theorem borrow_outer (hs : f.sib.root = some s) (ho : (f.sib.kid f.side.other).color = .red) :
    borrow f t =
      make f.side f.color s (make f.side .black f.node t (f.sib.kid f.side))
        ((f.sib.kid f.side.other).paint .black) := by
  simp [borrow, hs, ho]

theorem borrow_inner (hs : f.sib.root = some s) (ho : (f.sib.kid f.side.other).color = .black)
    (hi : (f.sib.kid f.side).root = some i) :
    borrow f t = make f.side f.color i (make f.side .black f.node t ((f.sib.kid f.side).kid f.side))
      (make f.side .black s ((f.sib.kid f.side).kid f.side.other) (f.sib.kid f.side.other)) := by
  simp [borrow, hs, ho, hi]

theorem lower_eq (hs : f.sib.root = some s) : lower f t =
    make f.side .black s (settle ⟨f.side, .red, f.node, f.sib.kid f.side⟩ t)
      (f.sib.kid f.side.other) := by
  simp [lower, hs]

theorem RbTree.Balanced.exists_root (h : t.Balanced (n + 1)) : ∃ x, t.root = some x := by
  cases t with
  | nil => simp at h
  | node c l x r => exact ⟨x, rfl⟩

theorem borrow_spec (hf : ¬f.Poor) (hs : f.sib.Balanced (n + 1)) (hc : f.sib.color = .black)
    (ht : t.Balanced n) (hb : t.color = .black) : ∃ s a b, borrow f t = make f.side f.color s a b ∧
      (borrow f t).toList = (f.attach t).toList ∧ a.Proper (n + 1) ∧ b.Proper (n + 1) ∧
      a.depth ≤ max (2 * n + 1) f.sib.depth ∧ b.depth ≤ 2 * n + 1 := by
  obtain ⟨s, hroot⟩ := hs.exists_root
  have heq := eq_make f.side hroot
  rw [heq, hc, balanced_succ] at hs
  have hdepth := depth_of_root f.side hroot
  have hlist : (f.attach t).toList =
      (make f.side f.color f.node t (make f.side .black s (f.sib.kid f.side)
        (f.sib.kid f.side.other))).toList := by
    rw [RbFrame.attach]
    conv_lhs => rw [heq, hc]
  have ht2 := ht.depth_le.2 hb
  cases ho : (f.sib.kid f.side.other).color with
  | red =>
    rw [borrow_outer hroot ho]
    refine ⟨s, _, _, rfl, ?_, ?_, ⟨hs.2.paint_black ho, color_paint_black⟩, ?_, ?_⟩
    · rw [hlist]
      cases f.side <;> simp [toList_make]
    · exact ⟨balanced_succ.2 ⟨ht, hs.1⟩, color_make⟩
    · rw [depth_make]
      omega
    · rw [depth_paint]
      exact hs.2.depth_le.1
  | black =>
    have hi : (f.sib.kid f.side).color = .red := by
      cases hi : (f.sib.kid f.side).color with
      | red => rfl
      | black => exact (hf ⟨hi, ho⟩).elim
    obtain ⟨i, hir⟩ := root_isSome_of_red hi
    have hieq := eq_make f.side hir
    have hib := hs.1
    rw [hieq, hi, balanced_red] at hib
    rw [borrow_inner hroot ho hir]
    refine ⟨i, _, _, rfl, ?_, ?_, ?_, ?_, ?_⟩
    · rw [hlist]
      conv_rhs => rw [hieq]
      cases f.side <;> simp [toList_make]
    · exact ⟨balanced_succ.2 ⟨ht, hib.2.2.1⟩, color_make⟩
    · exact ⟨balanced_succ.2 ⟨hib.2.2.2, hs.2⟩, color_make⟩
    · have := hib.2.2.1.depth_le.2 hib.1
      rw [depth_make]
      omega
    · have h1 := hib.2.2.2.depth_le.2 hib.2.1
      have h2 := hs.2.depth_le.2 ho
      rw [depth_make]
      omega

theorem toList_settle (hs : f.sib.Balanced (n + 1)) (hc : f.sib.color = .black)
    (ht : t.Balanced n) (hb : t.color = .black) : (settle f t).toList = (f.attach t).toList := by
  rw [settle]
  split
  · rw [RbFrame.attach]
    cases f.side <;> simp [toList_make]
  · next hf =>
    obtain ⟨-, -, -, -, hlist, -⟩ := borrow_spec hf hs hc ht hb
    exact hlist

theorem proper_settle_of_poor (hf : f.Poor) (hs : f.sib.Balanced (n + 1))
    (hc : f.sib.color = .black) (ht : t.Balanced n) : (settle f t).Proper (n + 1) := by
  rw [settle, if_pos hf]
  exact ⟨balanced_succ.2 ⟨ht, hs.paint_red hc hf.1 hf.2⟩, color_make⟩

theorem RbPath.Admits.balanced_sib (hp : Admits (f :: p) n H) : f.sib.Balanced n := by
  cases hc : f.color with
  | red => exact ((admits_red hc).1 hp).2.1
  | black => exact ((admits_black hc).1 hp).1

theorem proper_plug_settle (hf : ¬(f.Poor ∧ f.color = .black)) (hp : Admits (f :: p) (n + 1) H)
    (hc : f.sib.color = .black) (ht : t.Balanced n) (hb : t.color = .black)
    (hW : Within (f :: p) D) (hD : 2 * H ≤ D + 1) :
    (plug p (settle f t)).Proper H ∧ (plug p (settle f t)).depth ≤ D := by
  have hs := hp.balanced_sib
  have ht2 := ht.depth_le.2 hb
  have hlen : p.length + 2 * n + 3 ≤ 2 * H := by
    have h1 := hp.length_le.1
    cases hfc : f.color with
    | red =>
      have := (admits_red hfc).1 hp
      have := (this.2.2.2.length_le).2 this.2.2.1
      omega
    | black =>
      have := ((admits_black hfc).1 hp).2.length_le.1
      omega
  rw [Within] at hW
  by_cases hpoor : f.Poor
  · have hred : f.color = .red := by
      cases hfc : f.color with
      | red => rfl
      | black => exact (hf ⟨hpoor, hfc⟩).elim
    have hset := proper_settle_of_poor hpoor hs hc ht
    obtain ⟨-, -, -, hp'⟩ := (admits_red hred).1 hp
    refine ⟨hp'.plug hset.1 (by simp [hset.2]), ?_⟩
    rw [depth_plug_le, settle, if_pos hpoor, depth_make, depth_paint]
    exact ⟨by omega, hW.2⟩
  · rw [settle, if_neg hpoor]
    obtain ⟨s, a, b, heq, -, ha, hb', hda, hdb⟩ := borrow_spec hpoor hs hc ht hb
    rw [heq]
    have hp' : Admits (⟨f.side, f.color, s, b⟩ :: p) (n + 1) H := by
      cases hfc : f.color with
      | red =>
        exact ⟨hb'.2, hb'.1, ((admits_red hfc).1 hp).2.2⟩
      | black =>
        exact ⟨hb'.1, ((admits_black hfc).1 hp).2⟩
    refine ⟨hp'.plug ha.1 (by simp [ha.2]), ?_⟩
    rw [depth_plug_le, depth_make]
    exact ⟨by omega, hW.2⟩

theorem lower_admits (hroot : f.sib.root = some s) (hred : f.sib.color = .red)
    (hp : Admits (f :: p) n H) (hW : Within (f :: p) D) :
    Admits (⟨f.side, .red, f.node, f.sib.kid f.side⟩ ::
      ⟨f.side, .black, s, f.sib.kid f.side.other⟩ :: p) n H ∧
    Within (⟨f.side, .red, f.node, f.sib.kid f.side⟩ ::
      ⟨f.side, .black, s, f.sib.kid f.side.other⟩ :: p) D ∧
    (f.sib.kid f.side).color = .black := by
  have hs := hp.balanced_sib
  have heq := eq_make f.side hroot
  have hfc : f.color = .black := by
    cases hfc : f.color with
    | red => simp [((admits_red hfc).1 hp).1] at hred
    | black => rfl
  have hdepth := depth_of_root f.side hroot
  rw [heq, hred, balanced_red] at hs
  rw [Within] at hW
  refine ⟨?_, ?_, hs.1⟩
  · exact ⟨hs.1, hs.2.2.1, rfl, hs.2.2.2, ((admits_black hfc).1 hp).2⟩
  · simp only [Within, List.length_cons]
    exact ⟨by omega, by omega, hW.2⟩

theorem repairBlack_spec (hp : Admits p (n + 1) H) (ht : t.Balanced n) (hb : t.color = .black)
    (hW : Within p D) (hD : 2 * H ≤ D + 1) :
    (repairBlack p t).toList = (plug p t).toList ∧ (repairBlack p t).depth ≤ D ∧
      ∃ H', H' ≤ H ∧ (repairBlack p t).Proper H' := by
  induction p generalizing n t with
  | nil =>
    obtain rfl : n + 1 = H := hp
    have := ht.depth_le.2 hb
    exact ⟨rfl, by rw [repairBlack]; omega, n, by omega, ht, hb⟩
  | cons f p ih =>
    rw [repairBlack]
    have hs := hp.balanced_sib
    split
    · -- the rotation leaves a red parent, so the repair ends below the old sibling
      next hred =>
      obtain ⟨s, hroot⟩ := hs.exists_root
      obtain ⟨hp', hW', hc'⟩ := lower_admits hroot hred hp hW
      obtain ⟨hprop, hdep⟩ := proper_plug_settle (by simp) hp' hc' ht hb hW' hD
      have hlow : plug p (lower f t) = plug (⟨f.side, .black, s, f.sib.kid f.side.other⟩ :: p)
          (settle ⟨f.side, .red, f.node, f.sib.kid f.side⟩ t) := by
        rw [lower_eq hroot]
        rfl
      rw [hlow]
      refine ⟨?_, hdep, H, Nat.le_refl _, hprop⟩
      rw [plug_cons]
      refine plug_congr ?_
      have hlist := toList_settle hp'.balanced_sib hc' ht hb
      have heq := eq_make f.side hroot
      rw [RbFrame.attach, toList_make, hlist, RbFrame.attach, RbFrame.attach]
      conv_rhs => rw [heq]
      cases f.side <;> simp [toList_make]
    · replace hc : f.sib.color = .black := by cases h : f.sib.color <;> simp_all
      have hlist := toList_settle hs hc ht hb
      split
      · next hpoor =>
        have hset := proper_settle_of_poor hpoor.1 hs hc ht
        obtain ⟨h1, h2, h3⟩ := ih ((admits_black hpoor.2).1 hp).2 hset.1 hset.2 hW.2
        exact ⟨h1.trans (plug_congr hlist), h2, h3⟩
      · next hpoor =>
        obtain ⟨hprop, hdep⟩ := proper_plug_settle hpoor hp hc ht hb hW hD
        exact ⟨plug_congr hlist, hdep, H, Nat.le_refl _, hprop⟩

end Repair

section Search

open RbTree RbPath

variable [DecidableEq α] {dir : α → Side} {x : α}

/-- Down from `t`, below `p`, to `x` or to the hole where it belongs. -/
def seek (dir : α → Side) (x : α) : RbPath α → RbTree α → RbPath α × RbTree α
  | p, nil => (p, nil)
  | p, node c l y r =>
    if y = x then (p, node c l y r)
    else match dir y with
      | .left => seek dir x (⟨.left, c, y, r⟩ :: p) l
      | .right => seek dir x (⟨.right, c, y, l⟩ :: p) r

theorem seek_self (h : t.root = some x) : seek dir x p t = (p, t) := by
  cases t with
  | nil => rfl
  | node c l y r => simp [seek, show y = x by simpa [root] using h]

theorem seek_step (h : t.root = some y) (hy : y ≠ x) : seek dir x p t =
    seek dir x (⟨dir y, t.color, y, t.kid (dir y).other⟩ :: p) (t.kid (dir y)) := by
  cases t with
  | nil => simp [root] at h
  | node c l z r =>
    obtain rfl : z = y := by simpa [root] using h
    rw [seek, if_neg hy]
    cases hd : dir z <;> rfl

theorem plug_seek (dir : α → Side) (x : α) (p : RbPath α) (t : RbTree α) :
    plug (seek dir x p t).1 (seek dir x p t).2 = plug p t := by
  induction t generalizing p with
  | nil => rfl
  | node c l y r ihl ihr =>
    rw [seek]
    split
    · rfl
    · split
      · exact ihl _
      · exact ihr _

theorem seek_root : (seek dir x p t).2 = nil ∨ (seek dir x p t).2.root = some x := by
  induction t generalizing p with
  | nil => exact .inl rfl
  | node c l y r ihl ihr =>
    rw [seek]
    split
    · next h => exact .inr (congrArg some h)
    · split
      · exact ihl
      · exact ihr

/-- Along a list every other element points towards `x`. -/
def Guides (dir : α → Side) (x : α) (l : List α) : Prop :=
  l.Pairwise fun a b => (a ≠ x → dir a = .left → b ≠ x ∧ dir b = .left) ∧
    (b ≠ x → dir b = .right → a ≠ x ∧ dir a = .right)

/-- What is beside the hole points into it. -/
def RbPath.Leads (dir : α → Side) (x : α) (p : RbPath α) : Prop :=
  (∀ a ∈ before p, a ≠ x ∧ dir a = .right) ∧ ∀ b ∈ after p, b ≠ x ∧ dir b = .left

theorem seek_leads (hg : Guides dir x (plug p t).toList) (hp : Leads dir x p) :
    Leads dir x (seek dir x p t).1 := by
  induction t generalizing p with
  | nil => exact hp
  | node c l y r ihl ihr =>
    rw [seek]
    split
    · exact hp
    · next hy =>
      have hpair := hg
      rw [Guides, toList_plug, toList, List.append_assoc, List.append_assoc,
        List.pairwise_append, List.pairwise_append] at hpair
      obtain ⟨-, ⟨-, hyr, hl⟩, -⟩ := hpair
      split
      · next hd =>
        refine ihl hg ⟨hp.1, fun b hb => ?_⟩
        simp only [after, List.cons_append, List.mem_cons, List.mem_append] at hb
        rcases hb with rfl | hb | hb
        · exact ⟨hy, hd⟩
        · exact ((List.pairwise_cons.1 hyr).1 b (List.mem_append_left _ hb)).1 hy hd
        · exact hp.2 b hb
      · next hd =>
        refine ihr hg ⟨fun a ha => ?_, hp.2⟩
        simp only [before, List.mem_append, List.mem_singleton] at ha
        rcases ha with (ha | ha) | rfl
        · exact hp.1 a ha
        · exact (hl a ha y (by simp)).2 hy hd
        · exact ⟨hy, hd⟩

theorem seek_mem (hg : Guides dir x t.toList) (hx : x ∈ t.toList) :
    (seek dir x [] t).2.root = some x := by
  refine seek_root.resolve_left fun hnil => ?_
  have hleads : Leads dir x (seek dir x [] t).1 := seek_leads hg ⟨by simp [before], by simp [after]⟩
  have hlist : t.toList = (plug (seek dir x [] t).1 (seek dir x [] t).2).toList := by rw [plug_seek]; rfl
  rw [hlist, hnil, toList_plug, toList, List.append_nil, List.mem_append] at hx
  rcases hx with hx | hx
  · exact (hleads.1 x hx).1 rfl
  · exact (hleads.2 x hx).1 rfl

end Search

end ZephyrRtos.Lib
