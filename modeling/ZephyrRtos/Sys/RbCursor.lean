import ZephyrRtos.Sys.Rb

namespace ZephyrRtos.Sys

open List hiding nil

open Function Lib RbTree RbPath

variable {α : Type} {m m' : Rbnodes α} {st st' : RbStack α} {p q : RbPath α}
  {f g : RbFrame α} {t u : RbTree α} {r r' : Option α} {x y : α} {s : Side} {c : RbColor}

@[simp] theorem ok_bind (a : β) (k : β → Except RbFault γ) : (Except.ok a >>= k) = k a := rfl

@[simp] theorem pure_bind_ok (a : β) (k : β → Except RbFault γ) :
    ((pure a : Except RbFault β) >>= k) = k a := rfl

def Rep (m : Rbnodes α) : RbTree α → Prop
  | nil => True
  | node c l x r => m.color x = c ∧ m.child x .left = l.root ∧ m.child x .right = r.root ∧
      Rep m l ∧ Rep m r

def RepPath (m : Rbnodes α) : RbPath α → Option α → Prop
  | [], _ => True
  | f :: p, r => m.color f.node = f.color ∧ m.child f.node f.side = r ∧
      m.child f.node f.side.other = f.sib.root ∧ Rep m f.sib ∧ RepPath m p (some f.node)

theorem rep_make : Rep m (make s c x t u) ↔ m.color x = c ∧ m.child x s = t.root ∧
    m.child x s.other = u.root ∧ Rep m t ∧ Rep m u := by
  cases s
  · rfl
  constructor
  · rintro ⟨hc, ht, hu, hrt, hru⟩
    exact ⟨hc, hu, ht, hru, hrt⟩
  · rintro ⟨hc, hu, ht, hru, hrt⟩
    exact ⟨hc, ht, hu, hrt, hru⟩

theorem rep_plug : Rep m (plug p t) ↔ RepPath m p t.root ∧ Rep m t := by
  induction p generalizing t with
  | nil => simp [RepPath]
  | cons f p ih =>
    rw [plug_cons, ih, RbFrame.attach, rep_make, root_make]
    constructor
    · rintro ⟨h1, h2, h3, h4, h5, h6⟩
      exact ⟨⟨h2, h3, h4, h6, h1⟩, h5⟩
    · rintro ⟨⟨h2, h3, h4, h6, h1⟩, h5⟩
      exact ⟨h1, h2, h3, h4, h5, h6⟩

theorem Rep.congr (h : Rep m t)
    (he : ∀ x ∈ t.toList, m'.color x = m.color x ∧ ∀ s, m'.child x s = m.child x s) : Rep m' t := by
  induction t with
  | nil => trivial
  | node c l x r ihl ihr =>
    obtain ⟨h1, h2, h3, h4, h5⟩ := h
    obtain ⟨e1, e2⟩ := he x (by simp [toList])
    refine ⟨e1.trans h1, (e2 _).trans h2, (e2 _).trans h3, ihl h4 fun y hy => he y ?_,
      ihr h5 fun y hy => he y ?_⟩
    · exact mem_append_left _ hy
    · exact mem_append_right _ (mem_cons_of_mem _ hy)

theorem RepPath.congr (h : RepPath m p r)
    (he : ∀ x ∈ nodes p, m'.color x = m.color x ∧ ∀ s, m'.child x s = m.child x s) :
    RepPath m' p r := by
  induction p generalizing r with
  | nil => trivial
  | cons f p ih =>
    obtain ⟨h1, h2, h3, h4, h5⟩ := h
    obtain ⟨e1, e2⟩ := he f.node (by simp [nodes])
    exact ⟨e1.trans h1, (e2 _).trans h2, (e2 _).trans h3,
      h4.congr fun y hy => he y (by simp [nodes, hy]), ih h5 fun y hy => he y (by simp [nodes, hy])⟩

theorem RepPath.relink (h : RepPath m (g :: p) r)
    (hr : m'.child g.node g.side = r')
    (hg : m'.color g.node = m.color g.node ∧
      m'.child g.node g.side.other = m.child g.node g.side.other)
    (he : ∀ x ∈ g.sib.toList ++ nodes p,
      m'.color x = m.color x ∧ ∀ s, m'.child x s = m.child x s) : RepPath m' (g :: p) r' := by
  obtain ⟨h1, -, h3, h4, h5⟩ := h
  exact ⟨hg.1.trans h1, hr, hg.2.trans h3,
    h4.congr fun y hy => he y (mem_append_left _ hy),
    h5.congr fun y hy => he y (mem_append_right _ hy)⟩

section Writes

variable [DecidableEq α]

@[simp] theorem setColor_child : (m.setColor x c).child = m.child := rfl

@[simp] theorem setChild_color : (m.setChild x s r).color = m.color := rfl

@[simp] theorem color_self : (m.setColor x c).color x = c := update_self ..

theorem color_of_ne (h : y ≠ x) : (m.setColor x c).color y = m.color y := update_of_ne h ..

@[simp] theorem child_self : (m.setChild x s r).child x s = r := if_pos ⟨rfl, rfl⟩

theorem child_of_ne (h : y ≠ x) (s' : Side) :
    (m.setChild x s r).child y s' = m.child y s' := if_neg fun hh => h hh.1

@[simp] theorem child_other : (m.setChild x s r).child x s.other = m.child x s.other :=
  if_neg fun hh => Side.other_ne s hh.2

end Writes

section Edits

variable [DecidableEq α]

theorem Rep.setColor_of_notMem (h : Rep m t) (hx : x ∉ t.toList) : Rep (m.setColor x c) t :=
  h.congr fun _ hy => ⟨color_of_ne fun he => hx (he ▸ hy), fun _ => rfl⟩

theorem RepPath.setColor_of_notMem (h : RepPath m p r) (hx : x ∉ nodes p) :
    RepPath (m.setColor x c) p r :=
  h.congr fun _ hy => ⟨color_of_ne fun he => hx (he ▸ hy), fun _ => rfl⟩

theorem Rep.paint (h : Rep m t) (hnd : t.toList.Nodup) (hx : t.root = some x) (c : RbColor) :
    Rep (m.setColor x c) (t.paint c) := by
  rw [eq_make .left hx] at h hnd ⊢
  replace hnd := toList_make_perm.nodup_iff.1 hnd
  simp only [nodup_cons, mem_append, not_or] at hnd
  exact ⟨color_self, h.2.1, h.2.2.1, h.2.2.2.1.setColor_of_notMem hnd.1.1,
    h.2.2.2.2.setColor_of_notMem hnd.1.2⟩

theorem Rep.paint_focus (h : Rep m (plug p t)) (hnd : (plug p t).toList.Nodup)
    (hx : t.root = some x) (c : RbColor) : Rep (m.setColor x c) (plug p (t.paint c)) := by
  have hap : (t.toList ++ nodes p).Nodup := toList_plug_perm.nodup_iff.1 hnd
  obtain ⟨hpath, hrep⟩ := rep_plug.1 h
  refine rep_plug.2 ⟨?_, hrep.paint (nodup_append.1 hap).1 hx c⟩
  rw [root_paint]
  exact hpath.setColor_of_notMem fun hp => disjoint_of_nodup_append hap (mem_of_root hx) hp

theorem Rep.graft (h : Rep m (plug (f :: p) t)) (hnd : (plug (f :: p) t).toList.Nodup)
    (hu : Rep m u) (hsub : u.toList ⊆ t.toList) :
    Rep (m.setChild f.node f.side u.root) (plug (f :: p) u) := by
  have hap : (t.toList ++ nodes (f :: p)).Nodup := toList_plug_perm.nodup_iff.1 hnd
  obtain ⟨-, hpn, hdis⟩ := nodup_append.1 hap
  have hf := (nodup_cons.1 hpn).1
  obtain ⟨hpath, -⟩ := rep_plug.1 h
  refine rep_plug.2 ⟨hpath.relink child_self ⟨rfl, child_other⟩ fun y hy =>
    ⟨rfl, fun s => child_of_ne ?_ s⟩, hu.congr fun y hy =>
    ⟨rfl, fun s => child_of_ne ?_ s⟩⟩
  · rintro rfl
    exact hf hy
  · rintro rfl
    exact hdis _ (hsub hy) f.node (by simp [nodes]) rfl

end Edits

/-- The path array holds the nodes of the path, from the root down. -/
def Stacked (st : RbStack α) : RbPath α → Prop
  | [] => True
  | f :: p => st.slot (List.length p) = some f.node ∧ Stacked st p

theorem Stacked.congr (h : Stacked st p) (he : ∀ i < p.length, st'.slot i = st.slot i) :
    Stacked st' p := by
  induction p with
  | nil => trivial
  | cons f p ih =>
    exact ⟨(he _ (by simp)).trans h.1, ih h.2 fun i hi => he i (by simp; omega)⟩

theorem get_eq (hi : i < st.size) (hx : st.slot i = some x) : st.get i = .ok x := by
  rw [RbStack.get, if_pos hi, hx]
  rfl

/-- The top of a path array of `p.length + 1` nodes is the root of `t`, which hangs from
`p`. -/
structure Cursor (m : Rbnodes α) (st : RbStack α) (p : RbPath α) (t : RbTree α) : Prop where
  rep : Rep m (plug p t)
  nodup : (plug p t).toList.Nodup
  stacked : Stacked st p
  top : st.slot p.length = t.root
  room : p.length < st.size

namespace Cursor

theorem apart (h : Cursor m st p t) : (t.toList ++ nodes p).Nodup :=
  toList_plug_perm.nodup_iff.1 h.nodup

theorem up (h : Cursor m st (f :: p) t) : Cursor m st p (f.attach t) where
  rep := h.rep
  nodup := h.nodup
  stacked := h.stacked.2
  top := by rw [h.stacked.1, RbFrame.attach, root_make]
  room := by
    have := h.room
    simp only [length_cons] at this
    omega

theorem slot_zero (h : Cursor m st p t) : st.slot 0 = (plug p t).root := by
  induction p generalizing t with
  | nil => exact h.top
  | cons f p ih => exact ih h.up

theorem get_top (h : Cursor m st p t) (hx : t.root = some x) : st.get p.length = .ok x :=
  get_eq h.room (h.top.trans hx)

theorem get_parent (h : Cursor m st (f :: p) t) : st.get p.length = .ok f.node :=
  h.up.get_top (by simp [RbFrame.attach])

theorem get_grandparent (h : Cursor m st (f :: g :: p) t) : st.get p.length = .ok g.node :=
  h.up.get_parent

theorem repPath (h : Cursor m st p t) : RepPath m p t.root := (rep_plug.1 h.rep).1

theorem rep_focus (h : Cursor m st p t) : Rep m t := (rep_plug.1 h.rep).2

theorem notMem_nodes (h : Cursor m st p t) (hy : y ∈ t.toList) : y ∉ nodes p :=
  disjoint_of_nodup_append h.apart hy

variable [DecidableEq α]

theorem getSide (h : Cursor m st (f :: p) t) (hx : t.root = some x) :
    getSide m f.node x = f.side := by
  obtain ⟨-, h2, h3, -⟩ := h.repPath
  have hne : f.sib.root ≠ some x := fun hs =>
    h.notMem_nodes (mem_of_root hx) (by simp [nodes, mem_of_root hs])
  rw [Sys.getSide]
  cases hs : f.side with
  | left =>
    rw [hs] at h3
    rw [if_neg (by rw [show .right = Side.left.other from rfl, h3]; exact hne)]
  | right =>
    rw [hs, hx] at h2
    rw [if_pos h2]

theorem rotate_rep (h : Cursor m st (f :: p) t) (hx : t.root = some x) (hcol : m1.color = m.color)
    (hpath : RepPath m1 p (some x)) (hout : ∀ y, y ∉ nodes p → ∀ s, m1.child y s = m.child y s) :
    Rep (((m1.setChild x f.side (t.kid f.side).root).setChild x f.side.other
      (some f.node)).setChild f.node f.side (t.kid f.side.other).root) (plug p (f.rotated t x)) := by
  have hnd := h.apart
  rw [eq_make f.side hx] at hnd
  replace hnd := (toList_make_perm.append_right _).nodup_iff.1 hnd
  have hrep := h.rep_focus
  obtain ⟨hc, -, ho, hsib, -⟩ := h.repPath
  rw [eq_make f.side hx, rep_make] at hrep
  obtain ⟨hcx, -, -, hra, hrb⟩ := hrep
  set m4 := ((m1.setChild x f.side (t.kid f.side).root).setChild x f.side.other
    (some f.node)).setChild f.node f.side (t.kid f.side.other).root with hm4
  have hxP : x ≠ f.node := by
    rintro rfl
    simp [nodes] at hnd
  have key : ∀ y, y ≠ x → y ≠ f.node → ∀ s, m4.child y s = m1.child y s := fun y h1 h2 s => by
    rw [child_of_ne h2, child_of_ne h1, child_of_ne h1]
  have keep : ∀ u : RbTree α, Rep m u → (∀ y ∈ u.toList, y ≠ x ∧ y ≠ f.node ∧ y ∉ nodes p) →
      Rep m4 u := fun u hu hne => hu.congr fun y hy => by
    obtain ⟨h1, h2, h3⟩ := hne y hy
    exact ⟨congrFun hcol y, fun s => (key y h1 h2 s).trans (hout y h3 s)⟩
  simp only [nodes, cons_append, nodup_cons, mem_append, mem_cons, nodup_append, not_or] at hnd
  obtain ⟨⟨⟨hxa, hxb⟩, -, hxc, hxp⟩, ⟨-, -⟩, ⟨⟨hPc, hPp⟩, -, -, hcp⟩, hdis⟩ := hnd
  rw [rep_plug, RbFrame.rotated, rep_make, rep_make, root_make]
  refine ⟨?_, (congrFun hcol x).trans hcx, ?_, ?_, ?_, (congrFun hcol _).trans hc, ?_, ?_, ?_, ?_⟩
  · refine hpath.congr fun y hy => ⟨rfl, key y ?_ ?_⟩
    · rintro rfl
      exact hxp hy
    · rintro rfl
      exact hPp hy
  · rw [child_of_ne hxP]
    have := child_other (m := m1.setChild x f.side (t.kid f.side).root) (x := x)
      (s := f.side.other) (r := some f.node)
    rw [Side.other_other] at this
    rw [this, child_self]
  · rw [child_of_ne hxP, child_self, root_make]
  · refine keep _ hra fun y hy => ⟨?_, ?_, ?_⟩
    · rintro rfl
      exact hxa hy
    · rintro rfl
      exact hdis _ (.inl hy) _ (.inl rfl) rfl
    · exact fun hp => hdis _ (.inl hy) _ (.inr (.inr hp)) rfl
  · rw [child_self]
  · rw [child_other, child_of_ne hxP.symm, child_of_ne hxP.symm, hout _ hPp, ho]
  · refine keep _ hrb fun y hy => ⟨?_, ?_, ?_⟩
    · rintro rfl
      exact hxb hy
    · rintro rfl
      exact hdis _ (.inr hy) _ (.inl rfl) rfl
    · exact fun hp => hdis _ (.inr hy) _ (.inr (.inr hp)) rfl
  refine keep _ hsib fun y hy => ⟨?_, ?_, ?_⟩
  · rintro rfl
    exact hxc hy
  · rintro rfl
    exact hPc hy
  · exact fun hp => hcp _ hy _ hp rfl

section

omit [DecidableEq α]

theorem set_eq (hi : i < st.size) (r : Option α) :
    st.set i r = .ok { st with slot := update st.slot i r } := if_pos hi

theorem overwrite (h : Cursor m st p t) (hi : p.length < i) (r : Option α) :
    Cursor m { st with slot := update st.slot i r } p t where
  rep := h.rep
  nodup := h.nodup
  stacked := h.stacked.congr fun j hj => update_of_ne (by omega) _ _
  top := by rw [← h.top]; exact update_of_ne (by omega) _ _
  room := h.room

end

theorem rotate (h : Cursor m st (f :: p) t) (hx : t.root = some x) : ∃ m' st',
    Sys.rotate m st (p.length + 2) = .ok (m', st') ∧ Cursor m' st' p (f.rotated t x) ∧
      st'.size = st.size ∧ st'.slot (p.length + 1) = some f.node := by
  have hroom := h.room
  rw [length_cons] at hroom
  have hrep := h.rep_focus
  rw [eq_make f.side hx, rep_make] at hrep
  obtain ⟨-, hxs, hxo, -⟩ := hrep
  -- the two slots that are swapped
  have hstack : ∀ m1 : Rbnodes α, (do
      let stack ← st.set p.length (some x)
      let stack ← stack.set (p.length + 1) (some f.node)
      return (m1, stack) : Except RbFault (Rbnodes α × RbStack α)) =
      .ok (m1, ⟨st.size, update (update st.slot p.length (some x))
        (p.length + 1) (some f.node)⟩) := fun m1 => by
    rw [set_eq (by omega), ok_bind, set_eq (by exact hroom)]
    rfl
  have hcur : ∀ m1 : Rbnodes α, Rep m1 (plug p (f.rotated t x)) →
      Cursor m1 ⟨st.size, update (update st.slot p.length (some x))
        (p.length + 1) (some f.node)⟩ p (f.rotated t x) := fun m1 hr =>
    { rep := hr
      nodup := by
        rw [plug_congr (toList_rotated hx)]
        exact h.nodup
      stacked := h.stacked.2.congr fun i hi => by
        simp only
        rw [update_of_ne (by omega), update_of_ne (by omega)]
      top := by
        simp only
        rw [update_of_ne (by omega), update_self, RbFrame.rotated, root_make]
      room := by
        simp only
        omega }
  have hpar : st.get (p.length + 2 - 2) = .ok f.node := h.get_parent
  have hchild : st.get (p.length + 2 - 1) = .ok x := h.get_top hx
  cases p with
  | nil =>
    refine ⟨_, _, ?_, hcur _ (h.rotate_rep hx rfl trivial fun _ _ _ => rfl), rfl, by simp⟩
    simp only [Sys.rotate, hpar, hchild, ok_bind, h.getSide hx, hxs, hxo]
    exact hstack _
  | cons g p =>
    have hnd : (nodes (g :: p)).Nodup := (nodup_append.1 h.up.apart).2.1
    have hgn : g.node ∉ g.sib.toList ++ nodes p := (nodup_cons.1 hnd).1
    have hpath : RepPath (m.setChild g.node g.side (some x)) (g :: p) (some x) := by
      refine h.up.repPath.relink child_self ⟨rfl, child_other⟩ fun y hy =>
        ⟨rfl, fun s => child_of_ne ?_ s⟩
      rintro rfl
      exact hgn hy
    have hout : ∀ y, y ∉ nodes (g :: p) →
        ∀ s, (m.setChild g.node g.side (some x)).child y s = m.child y s := fun y hy s => by
      refine child_of_ne ?_ s
      rintro rfl
      exact hy (by simp [nodes])
    refine ⟨_, _, ?_, hcur _ (h.rotate_rep hx setChild_color hpath hout), rfl, by simp⟩
    have hgp : st.get ((g :: p).length + 2 - 3) = .ok g.node := h.get_grandparent
    have hside : Sys.getSide m g.node f.node = g.side := h.up.getSide (by simp [RbFrame.attach])
    simp only [Sys.rotate, hpar, hchild, hgp, ok_bind, h.getSide hx, hxs, hxo, hside]
    exact hstack _

theorem paint (h : Cursor m st p t) (hx : t.root = some x) (c : RbColor) :
    Cursor (m.setColor x c) st p (t.paint c) where
  rep := h.rep.paint_focus h.nodup hx c
  nodup := by
    rw [plug_congr (toList_paint c)]
    exact h.nodup
  stacked := h.stacked
  top := by rw [root_paint, h.top]
  room := h.room

omit [DecidableEq α] in
theorem cons_iff : Cursor m st (f :: p) t ↔ Cursor m st p (f.attach t) ∧
    st.slot (p.length + 1) = t.root ∧ p.length + 1 < st.size := by
  constructor
  · exact fun h => ⟨h.up, h.top, h.room⟩
  · rintro ⟨h, htop, hroom⟩
    exact ⟨h.rep, h.nodup, ⟨by rw [h.top, RbFrame.attach, root_make], h.stacked⟩, htop, hroom⟩

theorem paint_parent (h : Cursor m st (f :: p) t) (c : RbColor) :
    Cursor (m.setColor f.node c) st ({ f with color := c } :: p) t := by
  refine cons_iff.2 ⟨?_, h.top, h.room⟩
  have := h.up.paint (x := f.node) (by simp [RbFrame.attach]) c
  rwa [RbFrame.attach, paint_make] at this

theorem paint_kid (h : Cursor m st p t) (hx : t.root = some x) (s : Side)
    (hy : (t.kid s).root = some y) (c : RbColor) :
    Cursor (m.setColor y c) st p (make s t.color x ((t.kid s).paint c) (t.kid s.other)) := by
  have heq := eq_make s hx
  have hnd := h.apart
  rw [heq] at hnd
  replace hnd := (toList_make_perm.append_right _).nodup_iff.1 hnd
  simp only [cons_append, nodup_cons, nodup_append, mem_append, not_or] at hnd
  have hyk := mem_of_root hy
  have hrep := h.rep_focus
  rw [heq, rep_make] at hrep
  obtain ⟨h1, h2, h3, h4, h5⟩ := hrep
  have hxy : x ≠ y := by
    rintro rfl
    exact hnd.1.1.1 hyk
  refine ⟨rep_plug.2 ⟨?_, rep_make.2 ⟨?_, ?_, h3, ?_, ?_⟩⟩, ?_, h.stacked, ?_, h.room⟩
  · rw [root_make, ← hx]
    exact h.repPath.setColor_of_notMem fun hp => hnd.2.2.2 _ (.inl hyk) _ hp rfl
  · rw [color_of_ne hxy, h1]
  · rw [setColor_child, h2, root_paint]
  · exact h4.paint hnd.2.1.1 hy c
  · exact h5.setColor_of_notMem fun hk => hnd.2.1.2.2 _ hyk _ hk rfl
  · refine (plug_congr ?_ ▸ h.nodup :)
    conv_lhs => rw [heq]
    cases s <;> simp [toList_make]
  · rw [h.top, hx, root_make]

omit [DecidableEq α] in
theorem down (h : Cursor m st p (make s c x t u)) (hy : t.root = some y)
    (hroom : p.length + 1 < st.size) :
    Cursor m { st with slot := update st.slot (p.length + 1) (some y) }
      (⟨s, c, x, u⟩ :: p) t :=
  cons_iff.2 ⟨h.overwrite (by omega) _, by simp [hy], hroom⟩

end Cursor

section Search

variable [DecidableEq α] {lt : α → α → Bool}

/-- The way that `find_and_stack` takes at a node. -/
def dirTo (lt : α → α → Bool) (x y : α) : Side := if lt x y then .left else .right

/-- The path array after a search for `x`: up to `x`, or to the node above its hole. -/
inductive Found (lt : α → α → Bool) (m : Rbnodes α) (st : RbStack α) (x : α) :
    RbPath α → RbTree α → ℕ → Prop
  | here {p : RbPath α} {t : RbTree α} : Cursor m st p t → t.root = some x →
      Found lt m st x p t (p.length + 1)
  | hole {f : RbFrame α} {p : RbPath α} : Cursor m st p (f.attach nil) → f.node ≠ x →
      dirTo lt x f.node = f.side → Found lt m st x (f :: p) nil (p.length + 1)

theorem findAndStackLoop_spec (h : Cursor m st p t) (hy : t.root = some y) (hl : t.depth ≤ left)
    (hr : p.length + t.depth ≤ st.size) : ∃ st' sz,
    findAndStackLoop lt m x left st (p.length + 1) = .ok (st', sz) ∧ st'.size = st.size ∧
      Found lt m st' x (seek (dirTo lt x) x p t).1 (seek (dirTo lt x) x p t).2 sz := by
  induction left generalizing p st t y with
  | zero =>
    rw [depth_of_root .left hy] at hl
    omega
  | succ left ih =>
    have htop : st.get (p.length + 1 - 1) = .ok y := h.get_top hy
    rw [findAndStackLoop, htop, ok_bind]
    split
    · next hyx =>
      subst hyx
      rw [seek_self hy]
      exact ⟨st, _, rfl, rfl, .here h hy⟩
    · next hyx =>
      have hdepth := depth_of_root (dirTo lt x y) hy
      rw [eq_make (dirTo lt x y) hy] at h
      obtain ⟨-, hch, -⟩ := rep_make.1 h.rep_focus
      rw [seek_step hy hyx, ← dirTo, hch]
      cases hw : (t.kid (dirTo lt x y)).root with
      | none =>
        rw [root_eq_none.1 hw] at h ⊢
        exact ⟨st, _, rfl, rfl, .hole h hyx rfl⟩
      | some w =>
        have := depth_of_root .left hw
        simp only [Cursor.set_eq (show p.length + 1 < st.size by omega)]
        exact ih (h.down hw (by omega)) hw (by omega) (by simp only [length_cons]; omega)

/-- The nodes and the root pointer of a tree are those of `t`. -/
structure Rbtree.Linked (tr : Rbtree α) (t : RbTree α) : Prop where
  rep : Rep tr.nodes t
  root : tr.root = t.root
  nodup : t.toList.Nodup
  deep : t.depth ≤ tr.maxDepth

/-- A red-black tree whose black height `max_depth` leaves room for. -/
structure Rbtree.Holds (tr : Rbtree α) (t : RbTree α) : Prop extends tr.Linked t where
  proper : ∃ H, t.Proper H ∧ 2 * H ≤ tr.maxDepth + 1

variable (lt x) in
theorem findAndStack_spec (h : tr.Linked t) (hy : t.root = some y) : ∃ st sz,
    findAndStack lt tr x tr.stack = .ok (st, sz) ∧ st.size = tr.maxDepth + 1 ∧
      Found lt tr.nodes st x (seek (dirTo lt x) x [] t).1 (seek (dirTo lt x) x [] t).2 sz := by
  rw [findAndStack, Cursor.set_eq (by simp [Rbtree.stack]), ok_bind]
  have hcur : Cursor tr.nodes ⟨tr.maxDepth + 1, update tr.stack.slot 0 tr.root⟩ [] t :=
    ⟨h.rep, h.nodup, trivial, by simp [h.root], by simp⟩
  have hdeep := h.deep
  exact findAndStackLoop_spec hcur hy (by simp only [Rbtree.stack]; omega)
    (by simp only [length_nil]; omega)

end Search

end ZephyrRtos.Sys
