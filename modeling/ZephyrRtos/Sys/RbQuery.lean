import ZephyrRtos.Sys.RbCursor

namespace ZephyrRtos.Sys

open List hiding after nil

open Lib RbTree RbPath

variable {α : Type} {m : Rbnodes α} {p q : RbPath α} {F G : RbFrame α} {t u : RbTree α} {x y : α}
  {s : Side} {fuel : ℕ}

def endOf (s : Side) (l : List α) : Option α :=
  match s with
  | .left => l.head?
  | .right => l.getLast?

theorem endOf_toList_of_nil (hx : t.root = some x) (hs : t.kid s = nil) :
    endOf s t.toList = some x := by
  conv_lhs => rw [eq_make s hx, hs]
  cases s <;> simp [toList_make, toList, endOf]

theorem endOf_toList_kid (hx : t.root = some x) (hy : (t.kid s).root = some y) :
    endOf s t.toList = endOf s (t.kid s).toList := by
  have hne := ne_nil_of_mem (mem_of_root hy)
  conv_lhs => rw [eq_make s hx]
  cases s with
  | left =>
    exact head?_append_of_ne_nil _ hne
  | right =>
    simp only [toList_make, endOf]
    rw [getLast?_append_of_ne_nil _ (by simp), getLast?_cons_of_ne_nil hne]

theorem descend_spec (h : Rep m t) (hx : t.root = some x) (hf : t.depth ≤ fuel) :
    ∃ y, descend m s fuel x = .ok y ∧ endOf s t.toList = some y := by
  induction fuel generalizing t x with
  | zero =>
    rw [depth_of_root .left hx] at hf
    omega
  | succ fuel ih =>
    have hd := depth_of_root s hx
    obtain ⟨-, hch, -, hk, -⟩ := rep_make.1 (eq_make s hx ▸ h : Rep m (make ..))
    rw [descend, hch]
    cases hw : (t.kid s).root with
    | none => exact ⟨x, rfl, endOf_toList_of_nil hx (root_eq_none.1 hw)⟩
    | some w =>
      obtain ⟨y, heq, hy⟩ := ih hk hw (by omega)
      exact ⟨y, heq, (endOf_toList_kid hx hw).trans hy⟩

theorem getMinmax_spec (h : tr.Linked t) (hf : t.depth ≤ fuel) (s : Side) :
    zRbGetMinmax fuel tr s = .ok (endOf s t.toList) := by
  rw [zRbGetMinmax, h.root]
  cases hx : t.root with
  | none =>
    rw [root_eq_none.1 hx]
    cases s <;> rfl
  | some x =>
    obtain ⟨y, heq, hy⟩ := descend_spec (s := s) h.rep hx hf
    simp only [heq, hy]
    rfl

theorem zRbWalk_spec (h : Rep m t) (hf : t.depth < fuel) : zRbWalk m fuel t.root = .ok t.toList := by
  induction t generalizing fuel with
  | nil =>
    obtain _ | fuel := fuel
    · omega
    rfl
  | node c l x r ihl ihr =>
    obtain _ | fuel := fuel
    · omega
    rw [depth] at hf
    obtain ⟨-, hl, hr, hrl, hrr⟩ := h
    change zRbWalk m (fuel + 1) (some x) = _
    rw [zRbWalk, hl, hr, ihl hrl (by omega), ihr hrr (by omega)]
    rfl

section Contains

variable [DecidableEq α] {lt : α → α → Bool}

def dirFrom (lt : α → α → Bool) (x y : α) : Side := if lt y x then .right else .left

theorem containsFrom_spec (h : Rep m t) (hf : t.depth < fuel) :
    containsFrom lt m x fuel t.root =
      .ok (decide ((seek (dirFrom lt x) x p t).2.root = some x)) := by
  induction fuel generalizing t p with
  | zero => omega
  | succ fuel ih =>
    cases hy : t.root with
    | none =>
      rw [root_eq_none.1 hy]
      simp [containsFrom, seek, root]
    | some y =>
      rw [containsFrom]
      split
      · next he =>
        rw [seek_self (he ▸ hy)]
        simp [he ▸ hy]
      · next he =>
        have hd := depth_of_root (dirFrom lt x y) hy
        obtain ⟨-, hch, -, hk, -⟩ := rep_make.1 (eq_make (dirFrom lt x y) hy ▸ h : Rep m (make ..))
        rw [seek_step hy he, ← dirFrom, hch]
        exact ih hk (by omega)

theorem rbContains_spec (h : tr.Linked t) (hf : t.depth < fuel)
    (hg : Guides (dirFrom lt x) x t.toList) :
    rbContains lt fuel tr x = .ok (decide (x ∈ t.toList)) := by
  rw [rbContains, h.root, containsFrom_spec h.rep hf]
  refine congrArg _ (decide_eq_decide.2 ⟨fun hx => ?_, seek_mem hg⟩)
  have := mem_of_root hx
  have hplug : plug (seek (dirFrom lt x) x [] t).1 (seek (dirFrom lt x) x [] t).2 = t := plug_seek _ _ _ _
  rw [← hplug]
  exact toList_plug_perm.mem_iff.2 (mem_append_left _ this)

end Contains

section Foreach

variable {f f' : RbForeach α}

def lefty : RbPath α → Bool
  | [] => false
  | F :: _ => F.side = .left

def Flagged (isLeft : ℕ → Bool) : RbPath α → Prop
  | [] => True
  | _ :: p => isLeft (List.length p) = lefty p ∧ Flagged isLeft p

structure OnPath (f : RbForeach α) (p : RbPath α) : Prop where
  stacked : Stacked f.stack p
  flagged : Flagged f.isLeft p
  count : f.count = p.length

theorem Flagged.congr (h : Flagged l p) (he : ∀ i < p.length, l' i = l i) : Flagged l' p := by
  induction p with
  | nil => trivial
  | cons F p ih =>
    exact ⟨(he _ (by simp)).trans h.1, ih h.2 fun i hi => he i (by simp; omega)⟩

theorem push_spec (h : OnPath f p) (hroom : p.length < f.stack.size) (x : α) : ∃ f',
    f.push x (lefty p) = .ok f' ∧ f'.stack.size = f.stack.size ∧
      ∀ F : RbFrame α, F.node = x → OnPath f' (F :: p) := by
  rw [RbForeach.push, h.count, Cursor.set_eq hroom]
  refine ⟨_, rfl, rfl, fun F hF => ⟨⟨?_, ?_⟩, ⟨?_, ?_⟩, by simp⟩⟩
  · simp [hF]
  · exact h.stacked.congr fun i hi => Function.update_of_ne (by omega) _ _
  · simp
  · exact h.flagged.congr fun i hi => Function.update_of_ne (by omega) _ _

theorem stackLefts_spec (left : ℕ) (h : ∀ F : RbFrame α, F.node = x → OnPath f (F :: p))
    (hrep : Rep m t) (hx : t.root = some x) (hl : t.depth ≤ left)
    (hr : p.length + t.depth ≤ f.stack.size) : ∃ f' q F r, stackLefts m left f x = .ok (f', F.node) ∧
      f'.stack.size = f.stack.size ∧ OnPath f' (F :: q) ∧ F.side = .right ∧
      plug (F :: q) r = plug p t ∧ before (F :: q) = before p ++ [F.node] := by
  induction left generalizing f p t x with
  | zero =>
    rw [depth_of_root .left hx] at hl
    omega
  | succ left ih =>
    have hd := depth_of_root .left hx
    have heq := eq_make .left hx
    obtain ⟨-, hch, -, hk, -⟩ := rep_make.1 (heq ▸ hrep : Rep m (make ..))
    rw [stackLefts, hch]
    cases hy : (t.kid .left).root with
    | none =>
      refine ⟨f, p, ⟨.right, t.color, x, nil⟩, t.kid .right, rfl, rfl, h _ rfl, rfl, ?_, ?_⟩
      · rw [root_eq_none.1 hy] at heq
        conv_rhs => rw [heq]
        rfl
      · simp [before, toList]
    | some y =>
      have hd' := depth_of_root .left hy
      obtain ⟨f1, hpush, hsize, h1⟩ := push_spec (h ⟨.left, t.color, x, t.kid .right⟩ rfl)
        (by simp only [length_cons]; omega) y
      obtain ⟨f', q, F, r, hgo, hsize', hon, hF, hplug, hbef⟩ := ih h1 hk hy (by omega)
        (by rw [length_cons]; omega)
      refine ⟨f', q, F, r, ?_, hsize'.trans hsize, hon, hF, ?_, hbef⟩
      · simp only
        rwa [show true = lefty (⟨.left, t.color, x, t.kid .right⟩ :: p) from rfl, hpush]
      · rw [hplug]
        conv_rhs => rw [heq]
        rfl

theorem stackLeftLimb_spec (h : OnPath f p) (hp : lefty p = false) (hrep : Rep m t)
    (hx : t.root = some x) (hr : p.length + t.depth ≤ f.stack.size) : ∃ f' q F r,
      stackLeftLimb m x f = .ok (f', F.node) ∧ f'.stack.size = f.stack.size ∧ OnPath f' (F :: q) ∧
      F.side = .right ∧ plug (F :: q) r = plug p t ∧ before (F :: q) = before p ++ [F.node] := by
  have hd := depth_of_root .left hx
  obtain ⟨f1, hpush, hsize, h1⟩ := push_spec h (by omega) x
  obtain ⟨f', q, F, r, hgo, hsize', hrest⟩ := stackLefts_spec f1.stack.size h1 hrep hx
    (by omega) (by omega)
  refine ⟨f', q, F, r, ?_, hsize'.trans hsize, hrest⟩
  rwa [stackLeftLimb, ← hp, hpush]

theorem OnPath.up (h : OnPath f (F :: p)) : OnPath { f with count := p.length } p :=
  ⟨h.stacked.2, h.flagged.2, rfl⟩

theorem climb_spec (h : OnPath f (F :: p)) (hF : F.side = .right) :
    (climb f.isLeft (p.length + 1) = 1 ∧ after p = []) ∨ ∃ q G u, climb f.isLeft (p.length + 1) =
      length q + 2 ∧ OnPath { f with count := length q + 1 } (G :: q) ∧ G.side = .right ∧
      plug (G :: q) u = plug (F :: p) t ∧ before (G :: q) = before (F :: p) ++ t.toList ++ [G.node] := by
  induction p generalizing f F t with
  | nil => exact .inl ⟨rfl, rfl⟩
  | cons G p ih =>
    have hflag : f.isLeft (p.length + 1) = decide (G.side = .left) := h.flagged.1
    have hlist : before (F :: G :: p) ++ t.toList = before (G :: p) ++ (F.attach t).toList := by
      simp [before, hF, RbFrame.attach, toList_make]
    rw [length_cons, climb, hflag, hlist]
    cases hG : G.side with
    | left =>
      refine .inr ⟨p, ⟨.right, G.color, G.node, F.attach t⟩, G.sib, rfl,
        ⟨⟨h.stacked.2.1, h.stacked.2.2⟩, ⟨h.flagged.2.1, h.flagged.2.2⟩, rfl⟩, rfl, ?_, ?_⟩
      · simp only [plug_cons, RbFrame.attach, hG]
        rfl
      · simp [before, hG]
    | right =>
      rcases ih h.up hG with ⟨h1, h2⟩ | hrest
      · exact .inl ⟨h1, by simp [after, hG, h2]⟩
      · exact .inr hrest

theorem foreachNext_spec (h : OnPath f (F :: p)) (hF : F.side = .right)
    (hrep : Rep tr.nodes (plug (F :: p) t)) (hroot : tr.root = some x)
    (hdeep : (plug (F :: p) t).depth ≤ f.stack.size) :
    (∃ f', zRbForeachNext tr f = .ok (f', none) ∧ t.toList ++ after (F :: p) = []) ∨
    ∃ f' q G u, zRbForeachNext tr f = .ok (f', some G.node) ∧ f'.stack.size = f.stack.size ∧
      OnPath f' (G :: q) ∧ G.side = .right ∧ plug (G :: q) u = plug (F :: p) t ∧
      before (G :: q) = before (F :: p) ++ [G.node] := by
  obtain ⟨hpath, hrt⟩ := rep_plug.1 hrep
  obtain ⟨hlen, -⟩ := depth_plug_le.1 hdeep
  have hch : tr.nodes.child F.node .right = t.root := hF ▸ hpath.2.1
  have hcount : f.count = p.length + 1 := h.count
  have htop : f.stack.get (f.count - 1) = .ok F.node := by
    rw [hcount]
    exact get_eq (by simp at hlen; omega) h.stacked.1
  rw [zRbForeachNext, hroot]
  simp only [htop, ok_bind, hch, if_neg (show ¬f.count = 0 by omega)]
  cases hy : t.root with
  | some y =>
    obtain ⟨f', q, G, u, hgo, hsize, hon, hG, hplug, hbef⟩ :=
      stackLeftLimb_spec h (by simp [lefty, hF]) hrt hy hlen
    refine .inr ⟨f', q, G, u, ?_, hsize, hon, hG, hplug, hbef⟩
    simp only [hgo, ok_bind]
    rfl
  | none =>
    obtain rfl := root_eq_none.1 hy
    -- a left child on top is the case of the loop that ends at once
    have hflag : f.isLeft p.length = lefty p := h.flagged.1
    have hstop : lefty p = true → p ≠ [] ∧ climb f.isLeft (p.length + 1) = p.length + 1 := fun hl => by
      cases p with
      | nil => simp [lefty] at hl
      | cons G p => exact ⟨cons_ne_nil _ _, if_pos (hflag.trans hl)⟩
    simp only [hcount, Nat.add_one_sub_one, hflag]
    rcases climb_spec h hF (t := nil) with ⟨hc, hafter⟩ | ⟨q, G, u, hc, hon, hG, hplug, hbef⟩
    · have hl : ¬lefty p = true := fun hl => by
        obtain ⟨hne, hc'⟩ := hstop hl
        exact hne (length_eq_zero_iff.1 (by omega))
      exact .inl ⟨_, by simp only [hl, hc]; rfl, by simp [toList, after, hF, hafter]⟩
    have hroom := (depth_plug_le.1 (hplug ▸ hdeep)).1
    rw [length_cons] at hroom
    have hget : f.stack.get q.length = .ok G.node := get_eq (by omega) hon.stacked.1
    refine .inr ⟨{ f with count := q.length + 1 }, q, G, u, ?_, rfl, hon, hG, hplug,
      by simpa [toList] using hbef⟩
    by_cases hl : lefty p = true
    · have hlen' : p.length = q.length + 1 := by
        have := (hstop hl).2
        omega
      rw [if_pos hl]
      simp only [hlen', Nat.add_one_sub_one, hget, ok_bind]
      rfl
    · rw [if_neg hl]
      simp only [hc, show q.length + 2 - 1 = q.length + 1 from rfl, Nat.add_one_sub_one, hget,
        ok_bind]
      rfl

theorem rbForEach_from (h : OnPath f (F :: p)) (hF : F.side = .right)
    (hrep : Rep tr.nodes (plug (F :: p) t)) (hroot : tr.root = some x)
    (hdeep : (plug (F :: p) t).depth ≤ f.stack.size)
    (hfuel : (t.toList ++ after (F :: p)).length < fuel) :
    rbForEach tr fuel f = .ok (t.toList ++ after (F :: p)) := by
  induction fuel generalizing f F p t with
  | zero => omega
  | succ fuel ih =>
    rw [rbForEach]
    rcases foreachNext_spec h hF hrep hroot hdeep with
      ⟨f', hnext, hnil⟩ | ⟨f', q, G, u, hnext, hsize, hon, hG, hplug, hbef⟩
    · simp only [hnext, hnil]
      rfl
    have hlist : before (F :: p) ++ (t.toList ++ after (F :: p)) =
        before (F :: p) ++ G.node :: (u.toList ++ after (G :: q)) := by
      rw [← append_assoc, ← toList_plug, ← hplug, toList_plug, hbef]
      simp
    rw [append_cancel_left hlist] at hfuel ⊢
    simp only [hnext, ok_bind]
    rw [ih hon hG (hplug ▸ hrep) (by rw [hplug, hsize]; exact hdeep) (by simpa using hfuel)]
    rfl

theorem rbForEach_spec (h : tr.Linked t) (hfuel : t.toList.length < fuel) :
    rbForEach tr fuel tr.foreachInit = .ok t.toList := by
  obtain _ | fuel := fuel
  · omega
  rw [rbForEach]
  cases hx : t.root with
  | none =>
    rw [zRbForeachNext, h.root, root_eq_none.1 hx]
    rfl
  | some x =>
    have hon : OnPath tr.foreachInit [] := ⟨trivial, trivial, rfl⟩
    obtain ⟨f', q, F, r, hgo, hsize, hon', hF, hplug, hbef⟩ :=
      stackLeftLimb_spec hon rfl h.rep hx (by simpa [Rbtree.foreachInit] using h.deep)
    rw [plug_nil] at hplug
    have hlist : t.toList = F.node :: (r.toList ++ after (F :: q)) := by
      rw [← hplug, toList_plug, hbef]
      simp [before]
    rw [hlist] at hfuel ⊢
    have hnext : zRbForeachNext tr tr.foreachInit = .ok (f', some F.node) := by
      rw [zRbForeachNext, h.root, hx]
      simp only [hgo]
      rfl
    simp only [hnext, ok_bind]
    rw [rbForEach_from hon' hF (hplug ▸ h.rep) (h.root.trans hx)
      (by rw [hplug, hsize]; exact h.deep) (by simpa using hfuel)]
    rfl

end Foreach

end ZephyrRtos.Sys
