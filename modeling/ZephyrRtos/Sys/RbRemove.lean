import ZephyrRtos.Sys.RbMissingBlack

namespace ZephyrRtos.Sys

open List hiding nil

open Function Lib RbTree RbPath

variable {α : Type} {m m' : Rbnodes α} {st st' : RbStack α} {p q : RbPath α}
  {f g : RbFrame α} {t u w a b : RbTree α} {x y z : α} {c d : RbColor} {n H : ℕ}

theorem stackRightLimb_spec (left : ℕ) (h : Cursor m st p t) (hy : t.root = some y)
    (hl : t.depth ≤ left) (hr : p.length + t.depth ≤ st.size) : ∃ st' q w z,
    stackRightLimb m left st (p.length + 1) y = .ok (st', (q ++ p).length + 1, z) ∧
      st'.size = st.size ∧ Cursor m st' (q ++ p) w ∧ plug q w = t ∧ w.root = some z ∧
      w.kid .right = nil ∧ after q = [] := by
  induction left generalizing p st t y with
  | zero =>
    rw [depth_of_root .left hy] at hl
    omega
  | succ left ih =>
    have hdepth := depth_of_root .right hy
    have heq := eq_make .right hy
    have hcur := h
    rw [heq] at hcur
    obtain ⟨-, hch, -⟩ := rep_make.1 hcur.rep_focus
    rw [stackRightLimb, hch]
    cases hw : (t.kid .right).root with
    | none => exact ⟨st, [], t, y, rfl, rfl, h, rfl, hy, root_eq_none.1 hw, rfl⟩
    | some v =>
      have := depth_of_root .left hw
      simp only [Cursor.set_eq (show p.length + 1 < st.size by omega), ok_bind]
      obtain ⟨st', q, w, z, heq', hsize, hcur', hplug, hz, hnil, hafter⟩ :=
        ih (hcur.down hw (by omega)) hw (by omega) (by simp only [length_cons]; omega)
      refine ⟨st', q ++ [⟨.right, t.color, y, t.kid Side.right.other⟩], w, z, ?_, hsize, ?_, ?_, hz,
        hnil, ?_⟩
      · rwa [append_assoc]
      · simpa using hcur'
      · rw [plug_append, hplug]
        exact heq.symm
      · rw [after_append, hafter]
        rfl

theorem Stacked.replace (p' : RbPath α) (h : Stacked st (q ++ p)) (hlen : p.length = p'.length)
    (hp : Stacked st' p') (he : ∀ i, p.length ≤ i → i < (q ++ p).length → st'.slot i = st.slot i) :
    Stacked st' (q ++ p') := by
  induction q with
  | nil => exact hp
  | cons f q ih =>
    refine ⟨?_, ih h.2 fun i hi hi' => he i hi (by simp at hi' ⊢; omega)⟩
    have hlen' : (q ++ p').length = (q ++ p).length := by simp [hlen]
    have := h.1
    simp only [append_eq] at this ⊢
    rw [hlen', he _ (by simp) (by simp), this]

theorem Stacked.of_append (h : Stacked st (q ++ p)) : Stacked st p := by
  induction q with
  | nil => exact h
  | cons g q ih => exact ih h.2

theorem exchange_rep (hpath : RepPath m p (some y)) (hq : RepPath m q (some x))
    (hy : m.color y = c ∧ m.child y .left = (plug q (make .left d x a nil)).root ∧
      m.child y .right = b.root)
    (hx : m.color x = d ∧ m.child x .left = a.root ∧ m.child x .right = none)
    (ha : Rep m a) (hb : Rep m b) :
    Rep m (plug (q ++ ⟨.left, c, y, b⟩ :: p) (make .left d x a nil)) := by
  rw [plug_append, plug_cons, RbFrame.attach, rep_plug, rep_make, rep_plug]
  exact ⟨hpath, hy.1, hy.2.1, hy.2.2, ⟨hq, hx.1, hx.2.1, hx.2.2, ha, trivial⟩, hb⟩

variable [DecidableEq α]

theorem child_of_ne_side (h : s' ≠ s) :
    (m.setChild x s r).child y s' = m.child y s' := if_neg fun hh => h hh.2

section Exchange

variable {lo : α} {s : Side}

theorem exchange_color : (exchangeLinks m lo x y).color = m.color := by
  rw [exchangeLinks]
  split <;> rfl

theorem exchange_of_ne (hx : z ≠ x) (hy : z ≠ y) (hlo : z ≠ lo) :
    (exchangeLinks m lo x y).child z s = m.child z s := by
  rw [exchangeLinks]
  split <;> simp only [child_of_ne hx, child_of_ne hy, child_of_ne hlo]

theorem exchange_node (hxy : x ≠ y) (hlo : y ≠ lo) :
    (exchangeLinks m lo x y).child x .left = m.child y .left ∧
      (exchangeLinks m lo x y).child x .right = none := by
  rw [exchangeLinks]
  split
  · simp [child_of_ne hxy, child_of_ne_side]
  · simp [child_of_ne hxy, child_of_ne hlo, child_of_ne_side]

theorem exchange_node2_right (hxy : x ≠ y) :
    (exchangeLinks m lo x y).child y .right = m.child x .right := by
  rw [exchangeLinks]
  split
  · simp [child_of_ne hxy.symm, child_of_ne_side]
  · next h => simp [child_of_ne hxy.symm, child_of_ne (.symm h), child_of_ne_side]

theorem exchange_node2_left :
    (exchangeLinks m lo x y).child y .left = if lo = x then some x else m.child x .left := by
  rw [exchangeLinks]
  split
  · simp [child_of_ne_side]
  · next h => simp [child_of_ne (.symm h), child_of_ne_side]

theorem exchange_loparent (hx : lo ≠ x) (hy : lo ≠ y) :
    (exchangeLinks m lo x y).child lo s =
      if s = getSide m lo y then some x else m.child lo s := by
  rw [exchangeLinks, if_neg hx]
  simp only [child_of_ne hx, child_of_ne hy]
  simp [Rbnodes.setChild]

end Exchange

def loparent (x : α) : RbPath α → α
  | [] => x
  | f :: _ => f.node

theorem exchange_spec (h : Cursor m st (q ++ ⟨.left, c, x, b⟩ :: p) (make .left d y a nil))
    (hcol : m1.color = m.color) (hpath : RepPath m1 p (some y))
    (hout : ∀ z, z ∉ nodes p → ∀ s, m1.child z s = m.child z s) :
    Rep (((exchangeLinks m1 (loparent x q) x y).setColor x d).setColor y c)
      (plug (q ++ ⟨.left, c, y, b⟩ :: p) (make .left d x a nil)) := by
  have hrep := h.rep
  rw [plug_append, plug_cons, RbFrame.attach, rep_plug, rep_make, rep_plug] at hrep
  obtain ⟨-, -, hxl, hxr, ⟨hq, -, hyl, -, ha, -⟩, hb⟩ := hrep
  have hnd := (toList_make_perm.append_right _).nodup_iff.1 h.apart
  rw [nodes_append, toList, append_nil] at hnd
  simp only [nodes, cons_append, nodup_cons, mem_append, nodup_append, mem_cons, not_or] at hnd
  obtain ⟨⟨hya, hyq, hyx, hyb, hyp⟩, -, ⟨hqn, ⟨⟨hxb, hxp⟩, -, -, hbp⟩, hqd⟩, had⟩ := hnd
  set m2 := exchangeLinks m1 (loparent x q) x y with hm2
  have hlo : ∀ z, z ≠ x → z ∉ nodes q → z ≠ loparent x q := fun z hzx hzq => by
    cases q with
    | nil => exact hzx
    | cons f q => exact fun he => hzq (by simp [nodes, he, loparent])
  have hylo := hlo y hyx hyq
  have hcolor : ∀ z, z ≠ x → z ≠ y → ((m2.setColor x d).setColor y c).color z = m1.color z :=
    fun z hzx hzy => by
      rw [color_of_ne hzy, color_of_ne hzx, exchange_color]
  have keep : ∀ u : RbTree α, Rep m u → (∀ z ∈ u.toList, z ≠ x ∧ z ≠ y ∧ z ∉ nodes q ∧ z ∉ nodes p) →
      Rep ((m2.setColor x d).setColor y c) u := fun u hu hz => hu.congr fun z hzu => by
    obtain ⟨hzx, hzy, hzq, hzp⟩ := hz z hzu
    exact ⟨(hcolor z hzx hzy).trans (congrFun hcol z), fun s =>
      (exchange_of_ne hzx hzy (hlo z hzx hzq)).trans (hout z hzp s)⟩
  refine exchange_rep ?_ ?_ ⟨?_, ?_, ?_⟩ ⟨?_, ?_, ?_⟩ ?_ ?_
  · refine hpath.congr fun z hz => ?_
    have hzx : z ≠ x := fun he => hxp (he ▸ hz)
    have hzy : z ≠ y := fun he => hyp (he ▸ hz)
    exact ⟨hcolor z hzx hzy, fun s => exchange_of_ne hzx hzy
      (hlo z hzx fun hzq => hqd z hzq z (.inr (.inr hz)) rfl)⟩
  · cases q with
    | nil => trivial
    | cons f q =>
      have hmem : ∀ z, z ∈ nodes (f :: q) → z ≠ x ∧ z ≠ y ∧ z ∉ nodes p := fun z hz =>
        ⟨fun he => hqd z hz z (.inl he) rfl, fun he => hyq (he ▸ hz),
          fun hzp => hqd z hz z (.inr (.inr hzp)) rfl⟩
      obtain ⟨hfx, hfy, hfp⟩ := hmem f.node (by simp [nodes])
      have hside : getSide m1 f.node y = f.side := by
        rw [getSide, hout _ hfp]
        exact h.getSide root_make
      have hlow : ∀ s, m2.child f.node s = if s = f.side then some x else m.child f.node s := by
        intro s
        rw [hm2, loparent, exchange_loparent hfx hfy, hside, hout _ hfp]
      refine hq.relink ?_ ⟨?_, ?_⟩ fun z hz => ?_
      · rw [setColor_child, setColor_child, hlow, if_pos rfl]
      · rw [hcolor _ hfx hfy, hcol]
      · rw [setColor_child, setColor_child, hlow, if_neg (Side.other_ne _)]
      · obtain ⟨hzx, hzy, hzp⟩ := hmem z (mem_cons_of_mem _ hz)
        have hzf : z ≠ f.node := fun he => (nodup_cons.1 hqn).1 (he ▸ hz)
        exact ⟨(hcolor z hzx hzy).trans (congrFun hcol z), fun s =>
          (exchange_of_ne hzx hzy hzf).trans (hout z hzp s)⟩
  · rw [color_self]
  · rw [setColor_child, setColor_child, exchange_node2_left, hout x hxp, hxl]
    cases q with
    | nil => simp [loparent]
    | cons f q =>
      rw [loparent, if_neg fun he => hqd f.node (by simp [nodes]) _ (.inl rfl) he]
      exact root_plug_congr (p := q) (by simp [RbFrame.attach])
  · rwa [setColor_child, setColor_child, exchange_node2_right (.symm hyx), hout x hxp]
  · rw [color_of_ne (.symm hyx), color_self]
  · rw [setColor_child, setColor_child, (exchange_node (.symm hyx) hylo).1, hout y hyp, hyl]
  · exact (exchange_node (.symm hyx) hylo).2
  · refine keep a ha fun z hz => ⟨?_, ?_, ?_, ?_⟩
    · exact fun he => had z hz z (.inr (.inl he)) rfl
    · exact fun he => hya (he ▸ hz)
    · exact fun hzq => had z hz z (.inl hzq) rfl
    · exact fun hzp => had z hz z (.inr (.inr (.inr hzp))) rfl
  · refine keep b hb fun z hz => ⟨?_, ?_, ?_, ?_⟩
    · exact fun he => hxb (he ▸ hz)
    · exact fun he => hyb (he ▸ hz)
    · exact fun hzq => hqd z hzq z (.inr (.inl hz)) rfl
    · exact fun hzp => hbp z hz z hzp rfl

theorem relinkAbove_spec (h : Cursor tr.nodes st p u) (hx : u.root = some x) (y : α) :
    (relinkAbove tr (p.head?.map RbFrame.node) x y).maxDepth = tr.maxDepth ∧
    (relinkAbove tr (p.head?.map RbFrame.node) x y).nodes.color = tr.nodes.color ∧
    RepPath (relinkAbove tr (p.head?.map RbFrame.node) x y).nodes p (some y) ∧
    ∀ z, z ∉ nodes p → ∀ s, (relinkAbove tr (p.head?.map RbFrame.node) x y).nodes.child z s =
      tr.nodes.child z s := by
  cases p with
  | nil => exact ⟨rfl, rfl, trivial, fun _ _ _ => rfl⟩
  | cons g p =>
    have hnd := (nodup_append.1 h.apart).2.1
    rw [head?_cons, Option.map_some, relinkAbove, h.getSide hx]
    refine ⟨rfl, rfl, h.repPath.relink child_self ⟨rfl, child_other⟩ fun z hz =>
      ⟨rfl, fun s => child_of_ne ?_ s⟩, fun z hz s => child_of_ne ?_ s⟩
    · rintro rfl
      exact (nodup_cons.1 hnd).1 hz
    · rintro rfl
      exact hz (by simp [nodes])

theorem swapWithPredecessor_spec (h : Cursor tr.nodes st p u) (hx : u.root = some x)
    (hz : (u.kid .left).root = some z) (hdeep : p.length + u.depth < st.size) :
    ∃ tr' st' q a y d, swapWithPredecessor tr x st (p.length + 1) =
        .ok (tr', st', (q ++ ⟨.left, u.color, y, u.kid .right⟩ :: p : RbPath α).length + 1) ∧
      tr'.maxDepth = tr.maxDepth ∧ st'.size = st.size ∧
      Cursor tr'.nodes st' (q ++ ⟨.left, u.color, y, u.kid .right⟩ :: p) (make .left d x a nil) ∧
      u.kid .left = plug q (make .left d y a nil) ∧ after q = [] := by
  have hcur := h
  have heq := eq_make .left hx
  have hdepth := depth_of_root .left hx
  rw [heq] at hcur
  obtain ⟨hcx, hxl, -⟩ := rep_make.1 hcur.rep_focus
  obtain ⟨st2, q, w, y, hlimb, hsize, hcur2, hplug, hy, hnil, hafter⟩ :=
    stackRightLimb_spec st.size (hcur.down hz (by omega)) hz (by omega)
      (by simp only [length_cons]; omega)
  rw [eq_make .left hy, show Side.left.other = .right from rfl, hnil] at hcur2 hplug
  replace hsize : st2.size = st.size := hsize
  obtain ⟨hmax, hcol, hpath, hout⟩ := relinkAbove_spec h hx y
  have hrep := exchange_spec hcur2 hcol hpath hout
  set tr1 := relinkAbove tr (p.head?.map RbFrame.node) x y with htr1
  have hhi : hiparent st (p.length + 1) = .ok (p.head?.map RbFrame.node) := by
    cases p with
    | nil => rfl
    | cons g p =>
      have : st.get ((g :: p).length + 1 - 2) = .ok g.node := h.get_parent
      rw [hiparent, this]
      rfl
  have hroom := hcur2.room
  have hlo : st2.get ((q ++ ⟨.left, u.color, x, u.kid .right⟩ :: p : RbPath α).length + 1 - 2) =
      .ok (loparent x q) := by
    cases q with
    | nil => exact hcur2.get_parent
    | cons f q => exact Cursor.get_parent hcur2
  have hmid : st2.get p.length = .ok x := get_eq (by omega) hcur2.stacked.of_append.1
  have htop := hcur2.get_top root_make
  have hnd := (toList_make_perm.append_right _).nodup_iff.1 hcur2.apart
  set Q := (q ++ ⟨.left, u.color, x, u.kid .right⟩ :: p : RbPath α) with hQ
  have hlen : Q.length = q.length + (p.length + 1) := by simp [hQ]
  refine ⟨⟨tr1.root, tr1.maxDepth, ((exchangeLinks tr1.nodes (loparent x q) x y).setColor x
    w.color).setColor y u.color⟩, ⟨st2.size, update (update st2.slot p.length
    (some y)) Q.length (some x)⟩, q, w.kid .left, y, w.color, ?_, hmax, hsize,
    ⟨hrep, ?_, ?_, ?_, ?_⟩, hplug.symm, hafter⟩
  · have hcy : tr.nodes.color y = w.color := (rep_make.1 hcur2.rep_focus).1
    rw [swapWithPredecessor, hxl, hz]
    simp only [deref, hhi, Cursor.set_eq (show p.length + 1 < st.size by omega)]
    replace hlimb : stackRightLimb tr.nodes st.size _ (p.length + 1 + 1) z =
      .ok (st2, Q.length + 1, y) := hlimb
    simp only [hlimb, ok_bind, hlo, hmid, htop, ← htr1, exchange_color, hcol, hcx, hcy,
      Nat.add_one_sub_one]
    rw [Cursor.set_eq (by omega), ok_bind, Cursor.set_eq (by simpa using hcur2.room)]
    simp [hlen]
  · refine toList_plug_perm.nodup_iff.2 ((toList_make_perm.append_right _).nodup_iff.2 ?_)
    refine (List.Perm.nodup_iff ?_).1 hnd
    rw [nodes_append, nodes_append]
    simp only [← append_assoc]
    exact ((perm_middle.cons y).trans (.swap ..)).trans (perm_middle.symm.cons x)
  · refine hcur2.stacked.replace (⟨.left, u.color, y, u.kid .right⟩ :: p) (by simp) ⟨?_, ?_⟩ ?_
    · simp only
      rw [update_of_ne (by omega), update_self]
    · refine hcur2.stacked.of_append.2.congr fun i hi => ?_
      simp only
      rw [update_of_ne (by omega), update_of_ne (by omega)]
    · intro i hi hi'
      simp only [length_cons] at hi hi' ⊢
      rw [update_of_ne (by rw [← hQ] at hi'; omega), update_of_ne (by omega)]
  · simp [hlen]
  · simp only [length_append, length_cons]
    omega

theorem rbRemove_spec (lt : α → α → Bool) (h : tr.Holds t) (hy : t.root = some y) :
    (rbRemove lt tr x = .ok tr ∧ (Guides (dirTo lt x) x t.toList → x ∉ t.toList)) ∨
    ∃ tr' t' l r, rbRemove lt tr x = .ok tr' ∧ tr'.Holds t' ∧ t.toList = l ++ x :: r ∧
      t'.toList = l ++ r := by
  obtain ⟨st, sz, hfind, hsize, hfound⟩ := findAndStack_spec x lt h.toLinked hy
  have hplug := plug_seek (dirTo lt x) x [] t
  have hmem : Guides (dirTo lt x) x t.toList → _ := seek_mem
  rw [rbRemove, hfind]
  generalize (seek (dirTo lt x) x [] t).1 = p at hfound hplug
  generalize (seek (dirTo lt x) x [] t).2 = u at hfound hplug hmem
  subst hplug
  obtain ⟨H, hprop, hH⟩ := h.proper
  cases hfound with
  | @hole f p hcur hfx =>
    refine .inl ⟨?_, fun hg hx => by simpa [root] using hmem hg hx⟩
    have : st.get (p.length + 1 - 1) = .ok f.node := hcur.get_top (by simp [RbFrame.attach])
    simp only [ok_bind, this, ne_eq, hfx]
    rfl
  | here hcur hx =>
    have htop : st.get (p.length + 1 - 1) = .ok x := hcur.get_top hx
    have heq := eq_make .left hx
    have hlist : (plug p u).toList = before p ++ (u.kid .left).toList ++
        x :: ((u.kid .right).toList ++ after p) := by
      rw [toList_plug]
      conv_lhs => rw [heq]
      simp [toList_make, Side.other]
    simp only [ok_bind, htop, ne_eq]
    obtain ⟨-, hxl, hxr, -⟩ := rep_make.1 (heq ▸ hcur.rep_focus : Rep tr.nodes (make ..))
    rw [hxl, show .right = Side.left.other from rfl, hxr]
    have hdeep := h.deep
    rw [depth_plug_le] at hdeep
    -- the node, with at most one child, is cut out where the search or the exchange left it
    have cut : ∀ s, u.kid s = nil → ∃ tr' t' l r, unlink tr x st (p.length + 1) = .ok tr' ∧
        tr'.Holds t' ∧ (plug p u).toList = l ++ x :: r ∧ t'.toList = l ++ r := fun s hs => by
      obtain ⟨tr', t', heq', hholds, hlist'⟩ := unlink_spec hcur hx hs hprop h.deep hH hsize
      refine ⟨tr', t', _, _, heq', hholds, hlist, ?_⟩
      rw [hlist', toList_plug]
      cases s <;> simp [hs, Side.other, toList]
    cases hl : (u.kid .left).root with
    | none => exact .inr (cut .left (root_eq_none.1 hl))
    | some v =>
      cases hr : (u.kid Side.left.other).root with
      | none => exact .inr (cut .right (root_eq_none.1 hr))
      | some v' =>
        obtain ⟨tr1, st1, q, a, z, d, hswap, hmax, hsize1, hcur1, hplug, hafter⟩ :=
          swapWithPredecessor_spec hcur hx hl (by omega)
        have hshape : (plug (q ++ ⟨.left, u.color, z, u.kid .right⟩ :: p) (make .left d x a nil)).shape =
            (plug p u).shape := by
          rw [plug_append, plug_cons]
          refine shape_plug ?_
          conv_rhs => rw [heq]
          rw [hplug]
          exact congrArg (make .left u.color () · _) (shape_plug (by rw [shape_make, shape_make]))
        obtain ⟨tr', t', heq', hholds, hlist'⟩ := unlink_spec (s := .right) hcur1 root_make
          rfl (proper_shape.1 (hshape ▸ proper_shape.2 hprop))
          (by rw [← depth_shape, hshape, depth_shape, hmax]; exact h.deep) (by rw [hmax]; exact hH)
          (by rw [hsize1, hmax]; exact hsize)
        refine .inr ⟨tr', t', _, _, ?_, hholds, hlist, ?_⟩
        · simp only [hswap]
          exact heq'
        · rw [hlist', hplug, plug_append, plug_cons, RbFrame.attach]
          simp only [toList_make, toList_plug, hafter, Side.other]
          simp [toList]

end ZephyrRtos.Sys
