import ZephyrRtos.Pbuf.MpscLaws
import ZephyrRtos.Pbuf.MpscQueue

namespace ZephyrRtos.MpscPbuf

open List Function Lib RingTiles

def Item.isPlain (i : Item) : Bool :=
  match i.kind with
  | .packet .. | .skip => true
  | _ => false

def marks (c : Config) (R : ℕ) (is : List Item) : List (ℕ × Item) :=
  (placed Item.len c.size R is).filter fun e => !e.2.isPlain

def LoopOk (c : Config) (M : List (ℕ × Item)) (p : ℕ) : Option Loop → List ℕ → Prop
  | none, ids => ids = []
  | some l, ids => l.op.Ok c ∧
      if l.tmpWrIdxShift = 0 then l.droppedItem = none ∧ ids = []
      else ∃ id ws off, (l.tmpWrIdxVal, ⟨l.tmpWrIdxShift, .dropping p id ws off⟩) ∈ M ∧
        (l.droppedItem = none ∧ ids = [] ∨ l.droppedItem = some (l.tmpWrIdxVal + off) ∧ ids = [id])

structure Links (c : Config) (es : List Event) (M : List (ℕ × Item)) (s : State) : Prop where
  allocs : ∀ a ∈ s.allocs, ∃ id, (a.ptr, ⟨a.wlen, .pending id⟩) ∈ M
  nodup : (s.allocs.map Alloc.ptr).Nodup
  loops : ∀ p, ∃ ids, LoopOk c M p (s.producers p) ids ∧
    droppedIds p es = (notifiedPackets p es).map Prod.fst ++ ids
  droppings : ∀ e ∈ M, ∀ p id ws off, e.2.kind = .dropping p id ws off →
    ∃ l, s.producers p = some l ∧ l.tmpWrIdxShift = e.2.len ∧ l.tmpWrIdxVal = e.1
  held : s.held = (M.filter fun e => e.2.isClaimed).map Prod.fst

variable {c : Config} {es : List Event} {M M' : List (ℕ × Item)} {s : State} {p R : ℕ}
  {i : Item} {is xs ys : List Item} {l : Option Loop} {ids : List ℕ}

@[simp] theorem marks_nil : marks c R [] = [] := rfl

@[simp] theorem marks_append :
    marks c R (xs ++ ys) = marks c R xs ++ marks c (R + total Item.len xs) ys := by
  simp [marks]

@[simp] theorem marks_cons : marks c R (i :: is) =
    (if i.isPlain then [] else [(R % c.size, i)]) ++ marks c (R + i.len) is := by
  rw [marks, placed_cons, filter_cons]
  cases i.isPlain <;> simp [marks]

theorem mem_marks : e ∈ marks c R is ↔ e ∈ placed Item.len c.size R is ∧ e.2.isPlain = false := by
  rw [marks, mem_filter, Bool.not_eq_true']

theorem exists_mem_marks (hi : i ∈ is) (hplain : i.isPlain = false) : ∃ ptr, (ptr, i) ∈ marks c R is := by
  obtain ⟨ptr, hptr⟩ : ∃ ptr, (ptr, i) ∈ placed Item.len c.size R is := exists_mem_placed R hi
  exact ⟨ptr, mem_marks.2 ⟨hptr, hplain⟩⟩

theorem Item.isPlain_of_isClaimed (h : i.isClaimed = true) : i.isPlain = false := by
  obtain ⟨len, kind⟩ := i
  cases kind <;> simp [Item.isClaimed, Item.isPlain] at h ⊢

theorem exists_of_mem_marks (h : e ∈ marks c R is) :
    ∃ xs ys, is = xs ++ e.2 :: ys ∧ e.1 = (R + total Item.len xs) % c.size ∧
      marks c R is = marks c R xs ++ e :: marks c (R + total Item.len xs + e.2.len) ys := by
  obtain ⟨hmem, hplain⟩ := mem_marks.1 h
  obtain ⟨xs, ys, rfl, he⟩ := exists_of_mem_placed hmem
  refine ⟨xs, ys, rfl, he, ?_⟩
  rw [marks_append, marks_cons, hplain, ← he]
  rfl

theorem LoopOk.mono (h : LoopOk c M p l ids)
    (hM : ∀ e ∈ M, (∃ id ws off, e.2.kind = .dropping p id ws off) → e ∈ M') :
    LoopOk c M' p l ids := by
  cases l with
  | none => exact h
  | some l =>
    obtain ⟨hop, h⟩ := h
    refine ⟨hop, ?_⟩
    split at h
    · rwa [if_pos ‹_›]
    · rw [if_neg ‹_›]
      obtain ⟨id, ws, off, hmem, hids⟩ := h
      exact ⟨id, ws, off, hM _ hmem ⟨id, ws, off, rfl⟩, hids⟩

namespace Links

section

variable (h : Links c es M s)
include h

theorem congr (hM : M' = M) (hallocs : s'.allocs = s.allocs)
    (hproducers : s'.producers = s.producers) (hheld : s'.held = s.held) : Links c es M' s' := by
  obtain ⟨h1, h2, h3, h4, h5⟩ := h
  rw [← hallocs] at h1 h2
  rw [← hproducers] at h3 h4
  rw [← hheld] at h5
  rw [hM]
  exact ⟨h1, h2, h3, h4, h5⟩

theorem setLoop {s' : State} {l' : Option Loop}
    (hp : ∀ l, s.producers p = some l → l.tmpWrIdxShift = 0) (hl : LoopOk c M p l' [])
    (hproducers : s'.producers = update s.producers p l') (hallocs : s'.allocs = s.allocs)
    (hheld : s'.held = s.held) (hdropping : ∀ e ∈ M, ∀ id ws off, e.2.kind ≠ .dropping p id ws off) :
    Links c es M s' := by
  refine ⟨by rw [hallocs]; exact h.allocs, by rw [hallocs]; exact h.nodup, fun q => ?_,
    fun e he q id ws off hk => ?_, by rw [hheld]; exact h.held⟩
  · rw [hproducers]
    by_cases hq : q = p
    · subst hq
      rw [update_self]
      obtain ⟨ids, hids, heq⟩ := h.loops q
      have hnil : ids = [] := by
        cases hl : s.producers q with
        | none =>
          rwa [hl] at hids
        | some l =>
          rw [hl] at hids
          obtain ⟨-, hids⟩ := hids
          rw [if_pos (hp l hl)] at hids
          exact hids.2
      exact ⟨[], hl, hnil ▸ heq⟩
    · rw [update_of_ne hq]
      exact h.loops q
  · by_cases hq : q = p
    · subst hq
      exact absurd hk (hdropping e he id ws off)
    · rw [hproducers, update_of_ne hq]
      exact h.droppings e he q id ws off hk

theorem op_ok {l : Loop} (hl : s.producers p = some l) : l.op.Ok c := by
  obtain ⟨ids, hids, -⟩ := h.loops p
  rw [hl] at hids
  exact hids.1

theorem dropping {l : Loop} (hl : s.producers p = some l) (hshift : l.tmpWrIdxShift ≠ 0) :
    ∃ id ws off, (l.tmpWrIdxVal, ⟨l.tmpWrIdxShift, .dropping p id ws off⟩) ∈ M := by
  obtain ⟨ids, hids, -⟩ := h.loops p
  rw [hl] at hids
  obtain ⟨-, hids⟩ := hids
  rw [if_neg hshift] at hids
  obtain ⟨id, ws, off, hmem, -⟩ := hids
  exact ⟨id, ws, off, hmem⟩

theorem not_dropping (hM : ∀ e ∈ M, 0 < e.2.len)
    (hp : ∀ l, s.producers p = some l → l.tmpWrIdxShift = 0) :
    ∀ e ∈ M, ∀ id ws off, e.2.kind ≠ .dropping p id ws off := by
  intro e he id ws off hk
  obtain ⟨l, hl, hshift, -⟩ := h.droppings e he p id ws off hk
  have := hp l hl
  have := hM e he
  omega

theorem drop {l : Loop} {shift : ℕ} (val id off : ℕ) (ws : List Word) (hl : s.producers p = some l)
    (hzero : l.tmpWrIdxShift = 0) (hshift : shift ≠ 0)
    (hdropping : ∀ e ∈ M, ∀ id ws off, e.2.kind ≠ .dropping p id ws off) :
    Links c (es ++ [.dropped p id]) (M ++ [(val, ⟨shift, .dropping p id ws off⟩)])
      { s with
        producers := update s.producers p (some ⟨l.op, shift, val, some (val + off)⟩) } := by
  refine ⟨fun a ha => ?_, h.nodup, fun q => ?_, fun x hx q id' ws' off' hk => ?_, ?_⟩
  · obtain ⟨id, hid⟩ := h.allocs a ha
    exact ⟨id, mem_append_left _ hid⟩
  · obtain ⟨ids, hids, heq⟩ := h.loops q
    dsimp only
    by_cases hq : q = p
    · subst hq
      rw [hl] at hids
      obtain ⟨hop, hids⟩ := hids
      rw [if_pos hzero] at hids
      rw [update_self]
      refine ⟨[id], ⟨hop, ?_⟩, ?_⟩
      · rw [if_neg hshift]
        exact ⟨id, ws, off, mem_append_right _ (mem_singleton_self _), .inr ⟨rfl, rfl⟩⟩
      · rw [hids.2] at heq
        simpa [droppedIds, notifiedPackets, Event.droppedIds, Event.notifiedPackets] using heq
    · rw [update_of_ne hq]
      refine ⟨ids, hids.mono fun x hx _ => mem_append_left _ hx, ?_⟩
      simpa [droppedIds, notifiedPackets, Event.droppedIds, Event.notifiedPackets, Ne.symm hq] using heq
  · dsimp only
    obtain hin | rfl := mem_append.1 hx |>.imp_right mem_singleton.1
    · have hq : q ≠ p := by
        rintro rfl
        exact hdropping x hin id' ws' off' hk
      rw [update_of_ne hq]
      exact h.droppings x hin q id' ws' off' hk
    · obtain ⟨rfl, -⟩ := Kind.dropping.inj hk
      rw [update_self]
      exact ⟨_, rfl, rfl, rfl⟩
  · simpa [Item.isClaimed] using h.held

end

theorem post {A B : List (ℕ × Item)} {l : Loop} {id off : ℕ} {ws : List Word}
    (h : Links c es (A ++ (l.tmpWrIdxVal, ⟨l.tmpWrIdxShift, .dropping p id ws off⟩) :: B) s)
    (hl : s.producers p = some l) (hnone : l.droppedItem = none) (hshift : l.tmpWrIdxShift ≠ 0)
    (hne : ∀ e ∈ A ++ B, e.1 ≠ l.tmpWrIdxVal) :
    Links c es (A ++ B)
      { s with producers := update s.producers p (some ⟨l.op, 0, 0, none⟩) } := by
  have hmem : ∀ x ∈ A ++ (l.tmpWrIdxVal, (⟨l.tmpWrIdxShift, .dropping p id ws off⟩ : Item)) :: B,
      (∀ id ws off, x.2.kind ≠ .dropping p id ws off) → x ∈ A ++ B := by
    intro x hx hk
    simp only [mem_append, mem_cons] at hx ⊢
    obtain hx | rfl | hx := hx
    · exact .inl hx
    · exact absurd rfl (hk id ws off)
    · exact .inr hx
  have hsub : ∀ x ∈ A ++ B,
      x ∈ A ++ (l.tmpWrIdxVal, (⟨l.tmpWrIdxShift, .dropping p id ws off⟩ : Item)) :: B := by
    intro x hx
    simp only [mem_append] at hx ⊢
    tauto
  refine ⟨fun a ha => ?_, h.nodup, fun q => ?_, fun x hx q id' ws' off' hk => ?_, ?_⟩
  · obtain ⟨id, hid⟩ := h.allocs a ha
    exact ⟨id, hmem _ hid nofun⟩
  · obtain ⟨ids, hids, heq⟩ := h.loops q
    dsimp only
    by_cases hq : q = p
    · subst hq
      rw [hl] at hids
      obtain ⟨hop, hids⟩ := hids
      rw [if_neg hshift] at hids
      obtain ⟨-, -, _, -, ⟨-, hids⟩ | ⟨hsome, -⟩⟩ := hids
      · rw [update_self]
        exact ⟨[], ⟨hop, by rw [if_pos rfl]; exact ⟨rfl, rfl⟩⟩, by rwa [hids] at heq⟩
      · exact absurd (hnone.symm.trans hsome) nofun
    · rw [update_of_ne hq]
      refine ⟨ids, hids.mono fun x hx ⟨id', ws', off', hk⟩ => hmem x hx ?_, heq⟩
      intro _ _ _ hk'
      obtain ⟨rfl, -⟩ := Kind.dropping.inj (hk.symm.trans hk')
      exact hq rfl
  · have hq : q ≠ p := by
      rintro rfl
      obtain ⟨l', hl', -, hval⟩ := h.droppings x (hsub x hx) q id' ws' off' hk
      obtain rfl : l = l' := by simpa using hl.symm.trans hl'
      exact hne x hx hval.symm
    dsimp only
    rw [update_of_ne hq]
    exact h.droppings x (hsub x hx) q id' ws' off' hk
  · have hheld := h.held
    rw [filter_append] at hheld
    rwa [filter_append]

theorem dropped (h : Links c es M s) {l : Loop} {item : ℕ} (hl : s.producers p = some l)
    (hitem : l.droppedItem = some item) :
    ∃ id ws off, (l.tmpWrIdxVal, ⟨l.tmpWrIdxShift, .dropping p id ws off⟩) ∈ M ∧
      item = l.tmpWrIdxVal + off ∧
      droppedIds p es = (notifiedPackets p es).map Prod.fst ++ [id] := by
  obtain ⟨ids, hids, heq⟩ := h.loops p
  rw [hl] at hids
  obtain ⟨-, hids⟩ := hids
  split at hids
  · exact absurd (hids.1.symm.trans hitem) nofun
  · obtain ⟨id, ws, off, hmem, ⟨hnone, -⟩ | ⟨hsome, rfl⟩⟩ := hids
    · exact absurd (hnone.symm.trans hitem) nofun
    · exact ⟨id, ws, off, hmem, by simpa using hitem.symm.trans hsome, heq⟩

theorem notify (h : Links c es M s) {l : Loop} {id off : ℕ} {ws : List Word}
    (hl : s.producers p = some l) (hshift : l.tmpWrIdxShift ≠ 0)
    (hmem : (l.tmpWrIdxVal, ⟨l.tmpWrIdxShift, .dropping p id ws off⟩) ∈ M)
    (hids : droppedIds p es = (notifiedPackets p es).map Prod.fst ++ [id]) :
    Links c (es ++ [.notified p id ws]) M
      { s with producers := update s.producers p (some { l with droppedItem := none }) } := by
  refine ⟨h.allocs, h.nodup, fun q => ?_, fun x hx q id' ws' off' hk => ?_, h.held⟩
  · obtain ⟨ids, hloop, heq⟩ := h.loops q
    dsimp only
    by_cases hq : q = p
    · subst hq
      rw [hl] at hloop
      rw [update_self]
      refine ⟨[], ⟨hloop.1, ?_⟩, ?_⟩
      · rw [if_neg hshift]
        exact ⟨id, ws, off, hmem, .inl ⟨rfl, rfl⟩⟩
      · simpa [droppedIds, notifiedPackets, Event.droppedIds, Event.notifiedPackets] using hids
    · rw [update_of_ne hq]
      refine ⟨ids, hloop, ?_⟩
      simpa [droppedIds, notifiedPackets, Event.droppedIds, Event.notifiedPackets, Ne.symm hq] using heq
  · obtain ⟨l', hl', hlen, hval⟩ := h.droppings x hx q id' ws' off' hk
    dsimp only
    by_cases hq : q = p
    · subst hq
      obtain rfl : l = l' := by simpa using hl.symm.trans hl'
      rw [update_self]
      exact ⟨_, rfl, hlen, hval⟩
    · rw [update_of_ne hq]
      exact ⟨l', hl', hlen, hval⟩

theorem event (h : Links c es M s) (hdropped : ∀ p, e.droppedIds p = [])
    (hnotified : ∀ p, e.notifiedPackets p = []) : Links c (es ++ [e]) M s := by
  refine { h with loops := fun p => ?_ }
  obtain ⟨ids, hids, heq⟩ := h.loops p
  refine ⟨ids, hids, ?_⟩
  simpa [droppedIds, notifiedPackets, hdropped, hnotified] using heq

theorem rotate (h : Links c es (e :: M) s) (he : e.2.isClaimed = true) (hone : s.held.length ≤ 1) :
    Links c es (M ++ [e]) s := by
  have hmem : ∀ x, x ∈ e :: M ↔ x ∈ M ++ [e] := by
    simp [or_comm]
  refine ⟨fun a ha => ?_, h.nodup, fun p => ?_, fun x hx => h.droppings x ((hmem x).2 hx), ?_⟩
  · obtain ⟨id, hid⟩ := h.allocs a ha
    exact ⟨id, (hmem _).1 hid⟩
  · obtain ⟨ids, hids, heq⟩ := h.loops p
    exact ⟨ids, hids.mono fun x hx _ => (hmem x).1 hx, heq⟩
  have hheld := h.held
  rw [filter_cons, if_pos he, map_cons] at hheld
  have hnil : M.filter (fun e => e.2.isClaimed) = [] := by
    rw [hheld, length_cons, length_map] at hone
    exact length_eq_zero_iff.1 (by omega)
  rw [hheld, filter_append, hnil]
  simp [he]

theorem reserve (h : Links c es M s) {ptr : ℕ} (wlen id : ℕ) (hptr : ∀ e ∈ M, e.1 ≠ ptr) :
    Links c es (M ++ [(ptr, ⟨wlen, .pending id⟩)])
      { s with allocs := s.allocs ++ [⟨ptr, wlen⟩] } := by
  refine ⟨fun a ha => ?_, ?_, fun p => ?_, fun x hx p id ws off hk => ?_, ?_⟩
  · obtain ha | rfl := mem_append.1 ha |>.imp_right mem_singleton.1
    · obtain ⟨id, hid⟩ := h.allocs a ha
      exact ⟨id, mem_append_left _ hid⟩
    · exact ⟨id, mem_append_right _ (mem_singleton_self _)⟩
  · rw [map_append, nodup_append]
    refine ⟨h.nodup, pairwise_singleton .., fun x hx y hy => ?_⟩
    obtain ⟨a, ha, rfl⟩ := mem_map.1 hx
    obtain ⟨id, hid⟩ := h.allocs a ha
    rw [map_singleton, mem_singleton] at hy
    rw [hy]
    exact hptr _ hid
  · obtain ⟨ids, hids, heq⟩ := h.loops p
    exact ⟨ids, hids.mono fun x hx _ => mem_append_left _ hx, heq⟩
  · obtain hx | rfl := mem_append.1 hx |>.imp_right mem_singleton.1
    · exact h.droppings x hx p id ws off hk
    · simp at hk
  · simpa [Item.isClaimed] using h.held

theorem commit {A B : List (ℕ × Item)} {k id : ℕ} {a : Alloc}
    (h : Links c es (A ++ (a.ptr, ⟨a.wlen, .pending id⟩) :: B) s) (hk : s.allocs[k]? = some a) :
    Links c es (A ++ B) { s with allocs := s.allocs.eraseIdx k } := by
  have hmem : ∀ x ∈ A ++ (a.ptr, (⟨a.wlen, .pending id⟩ : Item)) :: B,
      x ≠ (a.ptr, ⟨a.wlen, .pending id⟩) → x ∈ A ++ B := by
    intro x hx hne
    simp only [mem_append, mem_cons] at hx ⊢
    tauto
  have hsub : ∀ x ∈ A ++ B, x ∈ A ++ (a.ptr, (⟨a.wlen, .pending id⟩ : Item)) :: B := by
    intro x hx
    simp only [mem_append] at hx ⊢
    tauto
  have herase : (s.allocs.eraseIdx k).map Alloc.ptr = (s.allocs.map Alloc.ptr).eraseIdx k := by
    rw [eraseIdx_map]
  have hptr : a.ptr ∉ (s.allocs.map Alloc.ptr).eraseIdx k := by
    have hget : (s.allocs.map Alloc.ptr)[k]? = some a.ptr := by rw [getElem?_map, hk]; rfl
    intro hmem
    obtain ⟨i, hne, hi⟩ := mem_eraseIdx_iff_getElem?.1 hmem
    have hlt := (List.getElem?_eq_some_iff.1 hi).1
    exact hne ((getElem?_inj hlt h.nodup).1 (hi.trans hget.symm))
  refine ⟨fun a' ha' => ?_, ?_, fun p => ?_, fun x hx => h.droppings x (hsub x hx), ?_⟩
  · obtain ⟨id', hid'⟩ := h.allocs a' (mem_of_mem_eraseIdx ha')
    refine ⟨id', hmem _ hid' fun heq => hptr ?_⟩
    rw [← herase]
    exact mem_map.2 ⟨a', ha', congrArg Prod.fst heq⟩
  · rw [herase]
    exact h.nodup.sublist (eraseIdx_sublist ..)
  · obtain ⟨ids, hids, heq⟩ := h.loops p
    refine ⟨ids, hids.mono fun x hx ⟨_, _, _, hk⟩ => hmem x hx ?_, heq⟩
    rintro rfl
    simp at hk
  · have hheld := h.held
    rw [filter_append] at hheld
    rwa [filter_append]

theorem claim (h : Links c es (A ++ B) s) (he : e.2.isClaimed = true)
    (hB : B.filter (fun e => e.2.isClaimed) = []) :
    Links c es (A ++ e :: B) { s with held := s.held ++ [e.1] } := by
  have hsub : ∀ x ∈ A ++ B, x ∈ A ++ e :: B := by
    intro x hx
    simp only [mem_append] at hx ⊢
    tauto
  refine ⟨fun a ha => ?_, h.nodup, fun p => ?_, fun x hx p id ws off hk => ?_, ?_⟩
  · obtain ⟨id, hid⟩ := h.allocs a ha
    exact ⟨id, hsub _ hid⟩
  · obtain ⟨ids, hids, heq⟩ := h.loops p
    exact ⟨ids, hids.mono fun x hx _ => hsub x hx, heq⟩
  · refine h.droppings x ?_ p id ws off hk
    simp only [mem_append, mem_cons] at hx ⊢
    obtain hx | rfl | hx := hx
    · exact .inl hx
    · exact absurd he (by simp [Item.isClaimed, hk])
    · exact .inr hx
  · have hheld := h.held
    rw [filter_append, hB] at hheld
    rw [filter_append, filter_cons, if_pos he, hB, hheld]
    simp

theorem free {A B : List (ℕ × Item)} {e : ℕ × Item} {held : List ℕ} (h : Links c es (A ++ e :: B) s)
    (he : e.2.isClaimed = true) (hA : A.filter (fun e => e.2.isClaimed) = []) (hheld : s.held = e.1 :: held) :
    Links c es (A ++ B) { s with held } := by
  have hmem : ∀ x ∈ A ++ e :: B, x.2.isClaimed = false → x ∈ A ++ B := by
    intro x hx hne
    simp only [mem_append, mem_cons] at hx ⊢
    obtain hx | rfl | hx := hx
    · exact .inl hx
    · exact absurd he (by simp [hne])
    · exact .inr hx
  have hsub : ∀ x ∈ A ++ B, x ∈ A ++ e :: B := by
    intro x hx
    simp only [mem_append] at hx ⊢
    tauto
  refine ⟨fun a ha => ?_, h.nodup, fun p => ?_, fun x hx => h.droppings x (hsub x hx), ?_⟩
  · obtain ⟨id, hid⟩ := h.allocs a ha
    exact ⟨id, hmem _ hid rfl⟩
  · obtain ⟨ids, hids, heq⟩ := h.loops p
    refine ⟨ids, hids.mono fun x hx ⟨_, _, _, hk⟩ => hmem x hx ?_, heq⟩
    simp [Item.isClaimed, hk]
  · have heq := h.held
    rw [filter_append, hA, filter_cons, if_pos he, hheld] at heq
    rw [filter_append, hA]
    exact (cons.inj heq).2

end Links

end ZephyrRtos.MpscPbuf
