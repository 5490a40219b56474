import ZephyrRtos.Sys.RbCursor

namespace ZephyrRtos.Sys

open List hiding nil

open Lib RbTree RbPath

variable {α : Type} [DecidableEq α] {m m' : Rbnodes α} {st st' : RbStack α} {p q : RbPath α}
  {f g : RbFrame α} {t u : RbTree α} {x y z i : α} {s : Side} {c : RbColor} {n H D : ℕ}

theorem Cursor.across (h : Cursor m st (f :: p) t) (hs : f.sib.root = some y) :
    Cursor m { st with slot := Function.update st.slot (p.length + 1) (some y) }
      (⟨f.side.other, f.color, f.node, t⟩ :: p) f.sib := by
  refine cons_iff.2 ⟨?_, by simp [hs], h.room⟩
  have := h.up.overwrite (i := p.length + 1) (by omega) (some y)
  rw [RbFrame.attach] at this ⊢
  rwa [make_other]

theorem lowerRedSibling_spec (h : Cursor m st (f :: p) t) (hx : t.root = some x)
    (hy : f.sib.root = some y) (hroom : p.length + 2 < st.size) : ∃ m' st',
    lowerRedSibling m st (p.length + 2) x f.node y = .ok (m', st') ∧ st'.size = st.size ∧
      Cursor m' st' (⟨f.side, .red, f.node, f.sib.kid f.side⟩ ::
        ⟨f.side, .black, y, f.sib.kid f.side.other⟩ :: p) t := by
  have hr : p.length + 1 < st.size := h.room
  obtain ⟨m1, st1, hrot, hcur, hsize, hslot⟩ := (h.across hy).rotate hy
  replace hsize : st1.size = st.size := hsize
  have h1 := hcur.paint_kid (x := y) (y := f.node) (by simp [RbFrame.rotated]) f.side
    (by simp [RbFrame.rotated, make_other]) .red
  have h2 := h1.paint (x := y) (by simp) .black
  simp only [RbFrame.rotated, make_other, Side.other_other, kid_make, kid_other_make, paint_make] at h2
  have h3 : Cursor ((m1.setColor f.node .red).setColor y .black) st1
      (⟨f.side, .black, y, f.sib.kid f.side.other⟩ :: p)
      (make f.side .red f.node t (f.sib.kid f.side)) :=
    .cons_iff.2 ⟨h2, by simpa using hslot, by omega⟩
  refine ⟨_, _, ?_, ?_, h3.down hx (by rw [hsize]; exact hroom)⟩
  · have hset : st.set (p.length + 2 - 1) (some y) = _ := Cursor.set_eq hr _
    simp only [lowerRedSibling, hset, ok_bind, hrot]
    rw [Cursor.set_eq (by rw [hsize]; exact hroom)]
    rfl
  · exact hsize

def turned (f : RbFrame α) (i y : α) : RbTree α :=
  make f.side .black i ((f.sib.kid f.side).kid f.side)
    (make f.side .red y ((f.sib.kid f.side).kid f.side.other) (f.sib.kid f.side.other))

theorem turnSibling_spec (h : Cursor m st (f :: p) t) (hx : t.root = some x)
    (hy : f.sib.root = some y) (hi : (f.sib.kid f.side).root = some i)
    (hroom : p.length + 2 < st.size) : ∃ m' st',
    turnSibling m st (p.length + 2) x y f.side = .ok (m', st', i) ∧
    Cursor m' st' ({ f with sib := turned f i y } :: p) t := by
  have hr : p.length + 1 < st.size := h.room
  have hsib : Rep m f.sib := h.repPath.2.2.2.1
  have h1 := h.across hy
  rw [eq_make f.side hy] at h1 hsib
  have h2 := h1.down hi (by rw [length_cons]; exact hroom)
  obtain ⟨m3, st3, hrot, h3, hsize, -⟩ := h2.rotate hi
  have h4 := h3.paint_kid (x := i) (y := y) (by simp [RbFrame.rotated]) f.side.other
    (by simp [RbFrame.rotated]) .red
  have h5 := h4.paint (x := i) (by simp) .black
  simp only [RbFrame.rotated, make_other, Side.other_other, kid_make, kid_other_make,
    paint_make] at h5
  have h6 := h5.across hx
  simp only [Side.other_other] at h6
  refine ⟨_, _, ?_, h6⟩
  have htop := h3.get_top (x := i) (by simp [RbFrame.rotated])
  rw [length_cons] at htop hrot
  simp only [turnSibling, (rep_make.1 hsib).2.1, hi, deref, ok_bind, Nat.add_one_sub_one,
    Cursor.set_eq hr]
  rw [Cursor.set_eq (by exact hroom)]
  simp only [hrot, ok_bind, htop]
  rw [Cursor.set_eq (by rw [hsize]; exact hr)]
  rfl

theorem redChild_root (h : Rep m t) : redChild m t.root = decide (t.color = .red) := by
  cases t with
  | nil => rfl
  | node c l x r =>
    simp only [redChild, root, color, h.1]
    cases c <;> rfl

/-- The subtree without the node `z` that is being removed, if that is its root. -/
def prune (z : α) (t : RbTree α) : RbTree α := if t.root = some z then nil else t

theorem Rep.prune (h : Rep m (plug (f :: p) t)) (hnd : (plug (f :: p) t).toList.Nodup)
    (hx : t.root = some x) :
    Rep (if x = z then m.setChild f.node f.side none else m) (plug (f :: p) (prune z t)) := by
  rw [Sys.prune, hx]
  by_cases hz : x = z
  · rw [if_pos hz, if_pos (congrArg some hz)]
    exact h.graft hnd (u := nil) trivial (by simp [toList])
  · rwa [if_neg hz, if_neg fun he => hz (Option.some.inj he)]

theorem root_plug_congr (h : t.root = u.root) : (plug p t).root = (plug p u).root := by
  cases p with
  | nil => exact h
  | cons f p =>
    induction p generalizing f t u with
    | nil => simp [RbFrame.attach]
    | cons g p ih => exact ih (by simp [RbFrame.attach]) g

section

variable (h : Cursor m st (f :: p) t) (hx : t.root = some x)
include h hx

theorem raiseSibling_spec (hy : f.sib.root = some y) (ho : (f.sib.kid f.side.other).color = .red) :
    ∃ m' st',
    raiseSibling z m st (p.length + 2) x f.node y f.side = .ok (m', st') ∧
    Rep m' (plug p (borrow f (prune z t))) ∧ st'.slot 0 = (plug p (borrow f (prune z t))).root := by
  have hr : p.length + 1 < st.size := h.room
  have hc : m.color f.node = f.color := h.repPath.1
  have hsib : Rep m f.sib := h.repPath.2.2.2.1
  obtain ⟨i, hi⟩ := root_isSome_of_red ho
  have h1 := (h.across hy).paint hy f.color
  have h2 := h1.paint_parent .black
  have h3 := h2.paint_kid (by simpa using hy) f.side.other (by
    rw [eq_make f.side.other hy, paint_make, kid_make]
    exact hi) .black
  obtain ⟨m4, st4, hrot, h4, -⟩ := h3.rotate (x := y) (by simp)
  rw [eq_make f.side hy] at h4 hsib
  simp only [RbFrame.rotated, paint_make, color_make, kid_make, kid_other_make, make_other,
    Side.other_other] at h4
  refine ⟨if x = z then m4.setChild f.node f.side none else m4, st4, ?_, ?_, ?_⟩
  · simp only [raiseSibling, (rep_make.1 hsib).2.2.1, hi, deref, ok_bind, hc, Nat.add_one_sub_one,
      Cursor.set_eq hr, hrot]
    rfl
  · rw [borrow_outer hy ho]
    exact .prune (f := ⟨f.side, .black, f.node, f.sib.kid f.side⟩)
      (p := ⟨f.side, f.color, y, (f.sib.kid f.side.other).paint .black⟩ :: p) h4.rep h4.nodup hx
  · rw [h4.slot_zero, borrow_outer hy ho]
    exact root_plug_congr (by simp)

theorem borrowRed_spec (hy : f.sib.root = some y) (hf : ¬f.Poor) (hroom : p.length + 2 < st.size) :
    ∃ m' st',
    borrowRed z m st (p.length + 2) x f.node y f.side = .ok (m', st') ∧
    Rep m' (plug p (borrow f (prune z t))) ∧ st'.slot 0 = (plug p (borrow f (prune z t))).root := by
  have hsib : Rep m f.sib := h.repPath.2.2.2.1
  rw [eq_make f.side hy, rep_make] at hsib
  obtain ⟨-, -, hout, -, hro⟩ := hsib
  rw [borrowRed, hout, redChild_root hro]
  cases ho : (f.sib.kid f.side.other).color with
  | red => exact raiseSibling_spec h hx hy ho
  | black =>
    have hi : (f.sib.kid f.side).color = .red := by
      cases hi : (f.sib.kid f.side).color with
      | red => rfl
      | black => exact (hf ⟨hi, ho⟩).elim
    obtain ⟨i, hir⟩ := root_isSome_of_red hi
    obtain ⟨m1, st1, hturn, hcur⟩ := turnSibling_spec h hx hy hir hroom
    obtain ⟨m', st', heq, hspec⟩ := raiseSibling_spec hcur hx (y := i) (by simp [turned])
      (by simp [turned])
    rw [borrow_outer (s := i) (by simp [turned]) (by simp [turned])] at hspec
    rw [borrow_inner hy ho hir]
    refine ⟨m', st', ?_, by simpa [turned] using hspec⟩
    simp only [hturn]
    exact heq

theorem Cursor.prune :
    Cursor (if x = z then m.setChild f.node f.side none else m) st p (f.attach (prune z t)) where
  rep := h.rep.prune h.nodup hx
  nodup := by
    refine toList_plug_perm (p := f :: p).nodup_iff.2 ?_
    refine h.apart.sublist (.append ?_ (.refl _))
    rw [Sys.prune]
    split
    · exact nil_sublist _
    · exact .refl _
  stacked := h.stacked.2
  top := by
    rw [h.up.top]
    simp [RbFrame.attach]
  room := h.up.room

end

theorem red_or_red (h : Rep m f.sib) (hy : f.sib.root = some y) :
    (redChild m (m.child y .left) || redChild m (m.child y .right)) = decide ¬f.Poor := by
  rw [eq_make .left hy, rep_make] at h
  obtain ⟨-, hl, hr, hrl, hrr⟩ := h
  rw [hl, show .right = Side.left.other from rfl, hr, redChild_root hrl, redChild_root hrr]
  cases hs : f.side <;> cases hcl : (f.sib.kid .left).color <;>
    cases hcr : (f.sib.kid .right).color <;> simp [RbFrame.Poor, hs, hcl, hcr, Side.other]

theorem settleBlack_spec (h : Cursor m st (f :: p) t) (hx : t.root = some x)
    (hy : f.sib.root = some y) (hroom : p.length + 2 < st.size) : ∃ m' st',
    settleBlack z m st (p.length + 2) x f.side = .ok (m', st', decide (f.Poor ∧ f.color = .black)) ∧
    Rep m' (plug p (settle f (prune z t))) ∧ st'.slot 0 = (plug p (settle f (prune z t))).root ∧
    (f.Poor → Cursor m' st' p (settle f (prune z t)) ∧ st'.size = st.size) := by
  have hpar : st.get (p.length + 2 - 2) = .ok f.node := h.get_parent
  obtain ⟨-, -, hch, hsib, -⟩ := h.repPath
  rw [settleBlack, hpar, ok_bind, hch, hy]
  simp only [deref, ok_bind, red_or_red hsib hy, settle]
  by_cases hf : f.Poor
  · have h1 := (h.prune (z := z) hx).paint_kid (x := f.node) (by simp [RbFrame.attach])
      f.side.other (by simpa [RbFrame.attach] using hy) .red
    simp only [RbFrame.attach, color_make, kid_other_make, Side.other_other, kid_make,
      make_other] at h1
    have hc1 := (rep_make.1 h1.rep_focus).1
    simp only [hf, hc1, forall_const]
    cases hcol : f.color with
    | black =>
      rw [hcol] at h1
      exact ⟨_, st, rfl, h1.rep, h1.slot_zero, h1, rfl⟩
    | red =>
      have h2 := h1.paint (x := f.node) (by simp) .black
      rw [paint_make] at h2
      exact ⟨_, st, rfl, h2.rep, h2.slot_zero, h2, rfl⟩
  · obtain ⟨m', st', heq, hrep, hroot⟩ := borrowRed_spec (z := z) h hx hy hf hroom
    refine ⟨m', st', ?_, ?_, ?_, fun h => (hf h).elim⟩
    · simp only [hf, heq]
      rfl
    · rwa [if_neg hf]
    · rwa [if_neg hf]

theorem prune_of_ne (hx : t.root = some x) (h : x ≠ z) : prune z t = t :=
  if_neg fun he => h (Option.some.inj (hx.symm.trans he))

theorem fixMissingBlack_spec (fuel : ℕ) (h : Cursor m st p t) (hx : t.root = some x)
    (hz : z ∉ nodes p) (hp : x = z → p ≠ []) (hadm : Admits p (n + 1) H) (hW : Within p D)
    (hD : D < st.size) (hfuel : p.length < fuel) : ∃ m' st',
    fixMissingBlack z fuel m st (p.length + 1) = .ok (m', st') ∧
    Rep m' (repairBlack p (prune z t)) ∧ st'.slot 0 = (repairBlack p (prune z t)).root := by
  induction p generalizing m st t x n fuel with
  | nil =>
    obtain _ | fuel := fuel
    · simp at hfuel
    rw [prune_of_ne hx fun he => hp he rfl]
    exact ⟨m, st, rfl, h.rep, h.slot_zero⟩
  | cons f p ih =>
    obtain _ | fuel := fuel
    · simp at hfuel
    rw [length_cons] at hfuel
    have hsb := hadm.balanced_sib
    obtain ⟨y, hy⟩ := hsb.exists_root
    have hget : st.get (p.length + 2 - 1) = .ok x := h.get_top hx
    have hpar : st.get (p.length + 2 - 2) = .ok f.node := h.get_parent
    obtain ⟨-, -, hch, hsib, -⟩ := h.repPath
    have hcy : m.color y = f.sib.color := by
      rw [eq_make .left hy] at hsib
      exact hsib.1
    rw [repairBlack]
    simp only [length_cons, fixMissingBlack, hget, hpar, ok_bind, h.getSide hx, hch, hy, deref,
      hcy, show ¬p.length + 1 + 1 ≤ 1 by omega, if_false]
    have hW1 := hW
    rw [Within, depth_of_root f.side hy] at hW1
    split
    · -- the lowered node has a red parent, so there is no further turn
      next hred =>
      obtain ⟨hadm', hW', -⟩ := lower_admits hy hred hadm hW
      obtain ⟨w, hw⟩ := hadm'.balanced_sib.exists_root
      have hW2 := hW'
      rw [Within, depth_of_root f.side hw, length_cons] at hW2
      obtain ⟨m1, st1, hlow, hsize, hcur⟩ := lowerRedSibling_spec h hx hy (by omega)
      obtain ⟨m2, st2, hset, hrep, hroot, -⟩ := settleBlack_spec (z := z) hcur hx hw
        (by rw [length_cons]; omega)
      simp only [reduceCtorEq, and_false, length_cons] at hset
      refine ⟨m2, st2, ?_, ?_, ?_⟩
      · simp only [hlow, ok_bind, pure_bind_ok, hset]
        rfl
      · rwa [lower_eq hy]
      · rwa [lower_eq hy]
    · obtain ⟨m1, st1, hset, hrep, hroot, hcur⟩ := settleBlack_spec (z := z) h hx hy (by omega)
      simp only [pure_bind_ok, hset, ok_bind]
      by_cases hpoor : f.Poor ∧ f.color = .black
      · obtain ⟨hcur, hsize⟩ := hcur hpoor.1
        have hroot' : (settle f (prune z t)).root = some f.node := by
          rw [settle, if_pos hpoor.1, root_make]
        have hne : f.node ≠ z := fun he => hz (by simp [nodes, he])
        have := ih fuel hcur hroot' (fun hn => hz (by simp [nodes, hn])) (fun he => (hne he).elim)
          ((admits_black hpoor.2).1 hadm).2 hW.2 (by omega) (by omega)
        rw [prune_of_ne hroot' hne] at this
        simpa only [hpoor, and_self, decide_true, if_true, Nat.add_one_sub_one] using this
      · refine ⟨m1, st1, ?_, ?_, ?_⟩
        · simp only [hpoor]
          rfl
        · rwa [if_neg hpoor]
        · rwa [if_neg hpoor]

theorem unlink_spec (h : Cursor tr.nodes st p u) (hx : u.root = some x) (hs : u.kid s = nil)
    (hprop : (plug p u).Proper H) (hdeep : (plug p u).depth ≤ tr.maxDepth)
    (hH : 2 * H ≤ tr.maxDepth + 1) (hsize : st.size = tr.maxDepth + 1) : ∃ tr' t',
    unlink tr x st (p.length + 1) = .ok tr' ∧ tr'.Holds t' ∧
      t'.toList = (plug p (u.kid s.other)).toList := by
  obtain ⟨n, hadm, hbal, -⟩ := admits_of_plug hprop
  obtain ⟨hlen, hW⟩ := depth_plug_le.1 hdeep
  rw [depth_of_root s hx] at hlen
  have hrep := h.rep_focus
  rw [eq_make s hx, rep_make, hs] at hrep
  obtain ⟨hcx, hxs, hxo, -, hrw⟩ := hrep
  have hchild : ((tr.nodes.child x .left).orElse fun _ => tr.nodes.child x .right) =
      (u.kid s.other).root := by
    cases s with
    | left =>
      rw [hxs, ← hxo]
      rfl
    | right =>
      have hl : tr.nodes.child x .left = (u.kid Side.right.other).root := hxo
      rw [hxs, hl]
      cases (u.kid Side.right.other).root <;> rfl
  have hsub : (u.kid s.other).toList ⊆ u.toList := fun y hy => by
    rw [eq_make s hx, mem_toList_make]
    exact .inr (.inr hy)
  have hnd : ((u.kid s.other).toList ++ nodes p).Nodup := by
    have := h.apart
    rw [eq_make s hx, hs] at this
    exact (nodup_cons.1 ((toList_make_perm.append_right _).nodup_iff.1 this)).2
  rw [unlink, hchild]
  cases hy : (u.kid s.other).root with
  | some y =>
    obtain ⟨-, rfl, hb0, hcred⟩ := hbal.only_child hx hs hy
    have hb1 := hb0.paint_black hcred
    have hlist := plug_congr (p := p) (toList_paint (t := u.kid s.other) .black)
    have hnd' : (plug p ((u.kid s.other).paint .black)).toList.Nodup := by
      rw [hlist]
      exact toList_plug_perm.nodup_iff.2 hnd
    have hdeep' : (plug p ((u.kid s.other).paint .black)).depth ≤ tr.maxDepth := by
      rw [depth_plug_le, depth_paint]
      exact ⟨by omega, hW⟩
    have hprop' := hadm.plug hb1 (by simp [color_paint_black])
    cases p with
    | nil =>
      refine ⟨_, (u.kid s.other).paint .black, rfl, ⟨⟨hrw.paint ?_ hy .black, ?_, hnd', hdeep'⟩,
        H, hprop', hH⟩, hlist⟩
      · exact (nodup_append.1 hnd).1
      · exact (hy.symm.trans (root_paint .black).symm :)
    | cons f q =>
      have hpar : st.get (q.length + 2 - 2) = .ok f.node := h.get_parent
      have hgraft := h.rep.graft h.nodup hrw hsub
      have hcy : tr.nodes.color y = .red := by
        rw [eq_make .left hy, hcred] at hrw
        exact hrw.1
      have hpaint := hgraft.paint_focus (toList_plug_perm.nodup_iff.2 hnd) hy .black
      rw [hy] at hpaint
      refine ⟨⟨st.slot 0, tr.maxDepth, _⟩, plug (f :: q) ((u.kid s.other).paint .black), ?_,
        ⟨⟨hpaint, h.up.slot_zero.trans (root_plug_congr (by simp [RbFrame.attach])), hnd', hdeep'⟩,
        H, hprop', hH⟩, hlist⟩
      · simp only [length_cons, hpar, ok_bind, h.getSide hx, setChild_color, hcy, or_true]
        rfl
  | none =>
    have hw := root_eq_none.1 hy
    rw [hw] at hnd ⊢
    have hb := hbal
    rw [eq_make s hx, hs] at hb
    have hnd' : (plug p nil).toList.Nodup := toList_plug_perm.nodup_iff.2 hnd
    have hdeep' : (plug p nil).depth ≤ tr.maxDepth := depth_plug_le.2 ⟨by simp only [depth]; omega, hW⟩
    cases p with
    | nil => exact ⟨_, nil, rfl, ⟨⟨trivial, rfl, by simp [toList], by simp [depth]⟩, 0, ⟨rfl, rfl⟩, by simp⟩, rfl⟩
    | cons f q =>
      have hpar : st.get (q.length + 2 - 2) = .ok f.node := h.get_parent
      simp only [length_cons, hpar, ok_bind, hcx]
      cases hc : u.color with
      | red =>
        rw [hc, balanced_red] at hb
        obtain rfl := balanced_nil.1 hb.2.2.1
        refine ⟨⟨st.slot 0, tr.maxDepth, _⟩, plug (f :: q) nil, ?_,
          ⟨⟨h.rep.graft h.nodup trivial (by simp [toList]),
            h.up.slot_zero.trans (root_plug_congr (by simp [RbFrame.attach])), hnd', hdeep'⟩,
          H, hadm.plug rfl (by simp [color]), hH⟩, rfl⟩
        simp only [h.getSide hx]
        rfl
      | black =>
        rw [hc, balanced_black] at hb
        obtain ⟨k, rfl, h0, -⟩ := hb
        obtain rfl := balanced_nil.1 h0
        obtain ⟨m', st', hfix, hrep, hroot⟩ := fixMissingBlack_spec (q.length + 3) h hx
          (h.notMem_nodes (mem_of_root hx)) (by simp) hadm hW (by omega) (by simp)
        rw [prune, if_pos hx] at hrep hroot
        obtain ⟨hlist, hdepth, H', hle, hprop'⟩ := repairBlack_spec hadm (t := nil) rfl rfl hW hH
        refine ⟨⟨st'.slot 0, tr.maxDepth, m'⟩, repairBlack (f :: q) nil, ?_,
          ⟨⟨hrep, hroot, ?_, hdepth⟩, H', hprop', ?_⟩, hlist⟩
        · rw [length_cons] at hfix
          simp only [hfix]
          rfl
        · rwa [hlist]
        · simp only
          omega

end ZephyrRtos.Sys
