import ZephyrRtos.Sys.RbCursor

namespace ZephyrRtos.Sys

open List hiding after

open Lib RbTree RbPath

variable {α : Type} [DecidableEq α] {m m' : Rbnodes α} {st st' : RbStack α} {p q : RbPath α}
  {f g : RbFrame α} {t u : RbTree α} {x y : α} {s : Side} {c : RbColor} {n H : ℕ}

theorem rotate_paint (h : Cursor m st (g :: p) u) (hy : u.root = some y) :
    ∃ m' st', (do
      let (m, stack) ← rotate m st (p.length + 2)
      let m := m.setColor (← stack.get p.length) .black
      let m := m.setColor (← stack.get (p.length + 1)) .red
      return (m, stack) : Except RbFault (Rbnodes α × RbStack α)) = .ok (m', st') ∧
    Cursor m' st' p (make g.side .black y (u.kid g.side)
      (make g.side .red g.node (u.kid g.side.other) g.sib)) := by
  obtain ⟨m', st', hrot, hcur, hsize, hslot⟩ := h.rotate hy
  have hroom := h.room
  rw [length_cons] at hroom
  have htop := hcur.get_top (x := y) (by simp [RbFrame.rotated])
  have hnext : st'.get (p.length + 1) = .ok g.node := get_eq (by omega) hslot
  refine ⟨_, st', by rw [hrot]; simp only [ok_bind, htop, hnext]; rfl, ?_⟩
  have h1 := hcur.paint (x := y) (by simp [RbFrame.rotated]) .black
  rw [RbFrame.rotated] at h1
  have h2 := h1.paint_kid (x := y) (y := g.node) (by simp) g.side.other (by simp) .red
  simpa [make_other] using h2

theorem fixExtraRed_rotation (h : Cursor m st (f :: g :: p) t) (hx : t.root = some x)
    (hf : ¬f.color = .black) (hg : ¬g.sib.color = .red) :
    fixExtraRed (p.length + 3) m st = fixByRotation m st p.length f.node x g.side := by
  have htop : st.get (p.length + 2) = .ok x := h.get_top hx
  have hpar : st.get (p.length + 1) = .ok f.node := h.get_parent
  have hgp : st.get p.length = .ok g.node := h.get_grandparent
  have hside : getSide m g.node f.node = g.side := h.up.getSide (by simp [RbFrame.attach])
  obtain ⟨-, -, haunt, hsib, -⟩ := h.up.repPath
  simp only [fixExtraRed, htop, hpar, hgp, ok_bind, h.repPath.1, hf, hside, haunt]
  cases hy : g.sib.root with
  | none => rfl
  | some y =>
    have hyc : ¬m.color y = .red := by
      rw [eq_make .left hy] at hsib
      rwa [hsib.1]
    simp [hyc]

theorem fixExtraRed_spec (h : Cursor m st p t) (hx : t.root = some x) (hp : Admits p n H) :
    ∃ m' st', fixExtraRed (p.length + 1) m st = .ok (m', st') ∧ Rep m' (repairRed p t) ∧
      st'.slot 0 = (repairRed p t).root := by
  induction p, t using repairRed.induct generalizing m st n x with
  | case1 t =>
    refine ⟨m.setColor x .black, st, ?_, (h.paint hx .black).rep, (h.paint hx .black).slot_zero⟩
    have := h.get_top hx
    simp only [length_nil] at this
    simp only [length_nil, fixExtraRed, this]
    rfl
  | case2 f t =>
    have hf : f.color = .black := by
      cases hc : f.color with
      | red => exact ((admits_red hc).1 hp).2.2.1.elim
      | black => rfl
    refine ⟨m, st, ?_, h.rep, h.slot_zero⟩
    have hpar : st.get 0 = .ok f.node := h.get_parent
    simp only [length_cons, length_nil, fixExtraRed, hpar, ok_bind, h.repPath.1, hf]
    rfl
  | case3 f g p t hf =>
    rw [repairRed, if_pos hf]
    refine ⟨m, st, ?_, h.rep, h.slot_zero⟩
    have htop : st.get (p.length + 2) = .ok x := h.get_top hx
    have hpar : st.get (p.length + 1) = .ok f.node := h.get_parent
    simp only [length_cons, fixExtraRed, htop, hpar, ok_bind, h.repPath.1, hf]
    rfl
  | case4 f g p t hf hg ih =>
    obtain ⟨-, -, -, -, hp'⟩ := hp.red_pair (by cases h : f.color <;> simp_all)
    obtain ⟨y, hy⟩ := root_isSome_of_red hg
    have htop : st.get (p.length + 2) = .ok x := h.get_top hx
    have hpar : st.get (p.length + 1) = .ok f.node := h.get_parent
    have hgp : st.get p.length = .ok g.node := h.get_grandparent
    have hside : getSide m g.node f.node = g.side := h.up.getSide (by simp [RbFrame.attach])
    obtain ⟨-, -, haunt, hsib, -⟩ := h.up.repPath
    have hcur : Cursor (((m.setColor g.node .red).setColor f.node .black).setColor y .black) st p
        (make g.side .red g.node (make f.side .black f.node t f.sib) (g.sib.paint .black)) := by
      have h1 := h.up.up.paint (x := g.node) (by simp [RbFrame.attach]) .red
      rw [RbFrame.attach, RbFrame.attach] at h1
      have h2 := h1.paint_kid (x := g.node) (y := f.node) (by simp) g.side (by simp) .black
      have h3 := h2.paint_kid (x := g.node) (by simp) g.side.other (by simpa using hy) .black
      simpa [make_other] using h3
    obtain ⟨m', st', heq, hrep, hroot⟩ := ih hcur (x := g.node) (by simp) hp'
    rw [repairRed, if_neg hf, if_pos hg]
    refine ⟨m', st', ?_, hrep, hroot⟩
    have hyc : m.color y = .red := by
      rw [eq_make .left hy, hg] at hsib
      exact hsib.1
    simp only [length_cons, fixExtraRed, htop, hpar, hgp, ok_bind, h.repPath.1, hf, hside, haunt, hy, hyc]
    exact heq
  | case5 f g p t hf hg hs =>
    obtain ⟨m', st', heq, hcur⟩ := rotate_paint h.up (y := f.node) (by simp [RbFrame.attach])
    rw [repairRed, if_neg hf, if_neg hg, if_pos hs]
    rw [RbFrame.attach, ← hs, kid_make, kid_other_make, hs] at hcur
    refine ⟨m', st', ?_, hcur.rep, hcur.slot_zero⟩
    rw [length_cons, length_cons, fixExtraRed_rotation h hx hf hg, fixByRotation,
      if_neg (by simp [h.getSide hx, hs])]
    exact heq
  | case6 f g p t hf hg hs =>
    have hfg := Side.eq_other_of_ne hs
    obtain ⟨m1, st1, hrot, hcur1, -⟩ := h.rotate hx
    obtain ⟨m', st', heq, hcur⟩ := rotate_paint hcur1 (y := x) (by simp [RbFrame.rotated])
    rw [repairRed, if_neg hf, if_neg hg, if_neg hs, hoist_eq hx]
    have hred : f.color = .red := by cases h : f.color <;> simp_all
    rw [RbFrame.rotated, hfg, Side.other_other, make_other, kid_make, kid_other_make, hred] at hcur
    rw [hfg, Side.other_other]
    refine ⟨m', st', ?_, hcur.rep, hcur.slot_zero⟩
    rw [length_cons, length_cons, fixExtraRed_rotation h hx hf hg, fixByRotation,
      if_pos (by simp [h.getSide hx, hs])]
    rw [length_cons] at hrot
    rwa [hrot]

theorem Cursor.insert (h : Cursor m st p (f.attach nil)) (hx : x ∉ nodes (f :: p))
    (hl : m.child x .left = none) (hr : m.child x .right = none) (hroom : p.length + 1 < st.size) :
    Cursor ((m.setChild f.node f.side (some x)).setColor x .red)
      { st with slot := Function.update st.slot (p.length + 1) (some x) } (f :: p)
      (node .red nil x nil) := by
  have hxf : x ≠ f.node := fun he => hx (by simp [nodes, he])
  have hnd := toList_plug_perm.nodup_iff.1 (show (plug (f :: p) nil).toList.Nodup from h.nodup)
  refine ⟨rep_plug.2 ⟨?_, ?_⟩, ?_, ⟨?_, ?_⟩, by simp [root], hroom⟩
  · have hpath : RepPath m (f :: p) none := (rep_plug.1 (show Rep m (plug (f :: p) nil) from h.rep)).1
    refine (hpath.relink child_self ⟨rfl, child_other⟩ fun y hy =>
      ⟨rfl, fun s => child_of_ne ?_ s⟩).setColor_of_notMem hx
    rintro rfl
    exact (nodup_cons.1 hnd).1 hy
  · refine ⟨color_self, ?_, ?_, trivial, trivial⟩
    · rw [setColor_child, child_of_ne hxf, hl]
      rfl
    · rw [setColor_child, child_of_ne hxf, hr]
      rfl
  · exact toList_plug_perm.nodup_iff.2 (nodup_cons.2 ⟨hx, hnd⟩)
  · have := h.top
    rw [RbFrame.attach] at this
    simpa using this
  · exact h.stacked.congr fun i hi => Function.update_of_ne (by omega) _ _

theorem rbInsert_spec (lt : α → α → Bool) (h : tr.Holds t) (hx : x ∉ t.toList) :
    ∃ tr' t' q, rbInsert lt tr x = .ok tr' ∧ tr'.Holds t' ∧ t.toList = before q ++ after q ∧
      t'.toList = before q ++ x :: after q ∧
      (Guides (dirTo lt x) x t.toList → Leads (dirTo lt x) x q) := by
  set m := (tr.nodes.setChild x .left none).setChild x .right none with hm
  have hne : ∀ y, y ≠ x → ∀ s, m.child y s = tr.nodes.child y s := fun y hy s => by
    rw [child_of_ne hy, child_of_ne hy]
  have hl : m.child x .left = none := by
    exact child_other.trans child_self
  have hr : m.child x .right = none := child_self
  rw [rbInsert, ← hm]
  cases hy : t.root with
  | none =>
    obtain rfl := root_eq_none.1 hy
    rw [h.root]
    exact ⟨_, node .black nil x nil, [], rfl,
      ⟨⟨⟨color_self, hl, hr, trivial, trivial⟩, rfl, by simp [toList], by simp [depth]⟩,
      1, ⟨by simp [RbTree.Balanced], rfl⟩, by simp⟩, rfl, rfl,
      fun _ => ⟨by simp [before], by simp [after]⟩⟩
  | some y =>
    have hlink : ({ tr with nodes := m } : Rbtree α).Linked t :=
      ⟨h.rep.congr fun z hz => ⟨rfl, hne z fun he => hx (he ▸ hz)⟩, h.root, h.nodup, h.deep⟩
    obtain ⟨st, sz, hfind, hsize, hfound⟩ := findAndStack_spec x lt hlink hy
    have hplug := plug_seek (dirTo lt x) x [] t
    have hleads : Guides (dirTo lt x) x t.toList → Leads (dirTo lt x) x (seek (dirTo lt x) x [] t).1 :=
      fun hg => seek_leads hg ⟨by simp [before], by simp [after]⟩
    generalize (seek (dirTo lt x) x [] t).1 = q at hfound hplug hleads
    generalize (seek (dirTo lt x) x [] t).2 = u at hfound hplug
    subst hplug
    cases hfound with
    | here hcur hu => exact (hx (toList_plug_perm.mem_iff.2 (by simp [mem_of_root hu]))).elim
    | @hole f p hcur hfx hside =>
      obtain ⟨H, hprop, hH⟩ := h.proper
      obtain ⟨n, hadm, hbal, -⟩ := admits_of_plug hprop
      obtain rfl : n = 0 := hbal
      have hdeep := h.deep
      rw [depth_plug_le, length_cons] at hdeep
      have hxn : x ∉ nodes (f :: p) := fun hn => hx (toList_plug_perm.mem_iff.2 (by simp [hn]))
      have hroom : p.length + 1 < st.size := by
        rw [hsize]
        simp only
        omega
      have hcur' := hcur.insert hxn hl hr hroom
      obtain ⟨m', st', hfix, hrep, hroot⟩ := fixExtraRed_spec hcur' rfl hadm
      set D := max tr.maxDepth (p.length + 1 + 1) with hD
      have hdepth : (plug (f :: p) (node .red nil x nil)).depth ≤ D := by
        have : Within (f :: p) D := (depth_plug_le.1 (show (plug (f :: p) nil).depth ≤ D from
          Nat.le_trans h.deep (Nat.le_max_left _ _))).2
        rw [depth_plug_le]
        exact ⟨by simp [depth]; omega, this⟩
      obtain ⟨H', hprop', hH', hdepth'⟩ := proper_repairRed hadm
        (show (node .red nil x nil).Balanced 0 by simp [RbTree.Balanced, color]) rfl hdepth
        (by simp only [length_cons]; omega)
      have hlist := toList_repairRed (f :: p) (t := node .red nil x nil) rfl
      refine ⟨⟨st'.slot 0, D, m'⟩, repairRed (f :: p) (node .red nil x nil), f :: p, ?_,
        ⟨⟨hrep, hroot, ?_, hdepth'⟩, H', hprop', ?_⟩, ?_, ?_, hleads⟩
      · have hpar : st.get (p.length + 1 - 1) = .ok f.node := hcur.get_top (by simp [RbFrame.attach])
        replace hfind : findAndStack lt { tr with nodes := m } x tr.stack = .ok (st, p.length + 1) :=
          hfind
        rw [h.root, hy] at hfind ⊢
        rw [dirTo] at hside
        rw [length_cons] at hfix
        simp only [hfind, hpar, ok_bind, hside, Cursor.set_eq hroom]
        simp only [hfix]
        rfl
      · rw [hlist]
        exact hcur'.nodup
      · simp only
        omega
      · rw [toList_plug]
        simp [toList]
      · rw [hlist, toList_plug]
        simp [toList]

end ZephyrRtos.Sys
