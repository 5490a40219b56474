import Mathlib.Data.List.Nodup
import ZephyrRtos.Pbuf.MpscLinks
import ZephyrRtos.Pbuf.MpscLaws

/-! What holds in every state of a run: the buffer is a queue of items, which agree with the events
and with what the producers and the consumer hold. -/

namespace ZephyrRtos.MpscPbuf

open List Function Lib RingTiles

structure Inv (c : Config) (es : List Event) (s : State) (R : ℕ) (front rest : List Item)
    (k : ℕ) : Prop where
  shape : Shape c s.buffer R front rest
  claimed : ∀ i ∈ front, i.isClaimed = true
  single : c.overwrite = true → s.held.length ≤ 1
  /-- Without overwriting no packet is moved, and none is dropped. -/
  plain : c.overwrite = false →
    ∀ i ∈ rest, i.isClaimed = false ∧ ∀ p id ws off, i.kind ≠ .dropping p id ws off
  room : c.overwrite = false → front.length ≤ 1 ∨ total Item.len front < c.size
  kept : c.overwrite = false → takenIds es = (claimedPackets es).map Prod.fst
  links : Links c es (marks c R (front ++ rest)) s
  log : Log es (front ++ rest) k s.buffer.next

variable {c : Config} {es : List Event} {s : State} {b' : Buffer} {R R' k k' n p : ℕ} {i : Item}
  {front rest front' rest' r xs ys : List Item} {ws : List Word}

theorem PacketAt.packetAt {b : Buffer} {ptr len id : ℕ} {valid busy : Bool}
    (h : PacketAt c b ptr len id ws valid busy) : packetAt c b ptr = ws := by
  rw [MpscPbuf.packetAt, h.wlen, h.contents]

theorem filter_marks (h : ∀ i ∈ xs, i.isClaimed = false) :
    (marks c R xs).filter (fun e => e.2.isClaimed) = [] := by
  refine filter_eq_nil_iff.2 fun e he => ?_
  rw [h e.2 (mem_of_mem_placed (mem_marks.1 he).1)]
  exact Bool.false_ne_true

theorem length_filter_marks (h : ∀ i ∈ xs, i.isClaimed = true) :
    ((marks c R xs).filter fun e => e.2.isClaimed).length = xs.length := by
  induction xs generalizing R with
  | nil => rfl
  | cons i xs ih =>
    have hi := h i mem_cons_self
    rw [marks_cons, Item.isPlain_of_isClaimed hi, filter_append, length_append, ih fun j hj => h j (mem_cons_of_mem _ hj)]
    simp [hi, add_comm]

theorem free_next : (free c b item).next = b.next := by
  rw [free]
  dsimp only
  split
  · split <;> rfl
  · rfl

namespace Inv

theorem init (c : Config) (buf : ℕ → Word) (hpos : 0 < c.size) :
    Inv c [] (system c buf).init 0 [] [] 0 where
  shape :=
    { pos := hpos
      tiled := .nil
      le := Nat.zero_le _
      rd := (Nat.zero_mod _).symm
      tmpRd := (Nat.zero_mod _).symm
      tmpWr := (Nat.zero_mod _).symm
      wr := (Nat.zero_mod _).symm
      full := (decide_eq_false hpos.ne).symm }
  claimed _ h := absurd h not_mem_nil
  single _ := Nat.zero_le _
  plain _ _ h := absurd h not_mem_nil
  room _ := .inl (Nat.zero_le _)
  kept _ := rfl
  links :=
    { allocs _ h := absurd h not_mem_nil
      nodup := nodup_nil
      loops _ := ⟨[], rfl, rfl⟩
      droppings _ h := absurd h not_mem_nil
      held := rfl }
  log := .init

section

variable (h : Inv c es s R front rest k)
include h

theorem length_le (hc : c.overwrite = true) : front.length ≤ 1 := by
  have hone := h.single hc
  rw [h.links.held, length_map, marks_append, filter_append, length_append,
    length_filter_marks h.claimed] at hone
  omega

theorem of_held_nil (hheld : s.held = []) : front = [] ∧ ∀ i ∈ rest, i.isClaimed = false := by
  have hnot : ∀ i ∈ front ++ rest, i.isClaimed = false := by
    intro i hi
    by_contra hclaimed
    rw [Bool.not_eq_false] at hclaimed
    obtain ⟨ptr, hptr⟩ := exists_mem_marks hi (Item.isPlain_of_isClaimed hclaimed)
    have hfilter := map_eq_nil_iff.1 (h.links.held.symm.trans hheld)
    exact filter_eq_nil_iff.1 hfilter _ hptr hclaimed
  refine ⟨eq_nil_iff_forall_not_mem.2 fun i hi => ?_, fun i hi => hnot i (mem_append_right _ hi)⟩
  exact absurd (h.claimed i hi) (by rw [hnot i (mem_append_left _ hi)]; exact Bool.false_ne_true)

theorem marks_pos : ∀ e ∈ marks c R (front ++ rest), 0 < e.2.len :=
  fun e he => (h.shape.tiled e (mem_marks.1 he).1).1

theorem not_dropping (hp : ∀ l, s.producers p = some l → l.tmpWrIdxShift = 0) :
    ∀ e ∈ marks c R (front ++ rest), ∀ id ws off, e.2.kind ≠ .dropping p id ws off :=
  h.links.not_dropping h.marks_pos hp

theorem split (hmem : (ptr, i) ∈ marks c R (front ++ rest)) (hi : i.isClaimed = false) :
    ∃ xs ys, rest = xs ++ i :: ys ∧
      ptr = (R + Shape.used front xs) % c.size ∧
      marks c R (front ++ rest) =
        marks c R (front ++ xs) ++ (ptr, i) :: marks c (R + Shape.used front xs + i.len) ys := by
  rw [marks_append] at hmem
  obtain hmem | hmem := mem_append.1 hmem
  · have := h.claimed i (mem_of_mem_placed (mem_marks.1 hmem).1)
    exact absurd (hi.symm.trans this) Bool.false_ne_true
  obtain ⟨xs, ys, hrest, hptr, heq⟩ := exists_of_mem_marks hmem
  rw [add_assoc R] at hptr
  rw [add_assoc R (total Item.len front) (total Item.len xs)] at heq
  refine ⟨xs, ys, hrest, hptr, ?_⟩
  rw [marks_append, heq, marks_append, append_assoc]
  rfl

theorem quiet (hq : Quiet c R front rest R' front' rest') (hs : Shape c b' R' front' rest')
    (hnext : b'.next = s.buffer.next) : Inv c es { s with buffer := b' } R' front' rest' k := by
  have hlog : Log es (front ++ rest) k b'.next := hnext ▸ h.log
  cases hq with
  | stay => exact { h with shape := hs, links := h.links.congr rfl rfl rfl rfl, log := hlog }
  | @skip n =>
    refine { h with shape := hs, plain := fun hc i hi => ?_, links := h.links.congr ?_ rfl rfl rfl,
                    log := hlog.mono ?_ fun i hi => ?_ }
    · obtain hi | rfl := mem_append.1 hi |>.imp_right mem_singleton.1
      · exact h.plain hc i hi
      · exact ⟨rfl, by simp⟩
    · simp [Item.isPlain]
    · simp [Item.live]
    · rw [← append_assoc] at hi
      obtain hi | rfl := mem_append.1 hi |>.imp_right mem_singleton.1
      · exact .inl hi
      · exact .inr rfl
  | @pop n r hfront hrest =>
    subst hfront hrest
    refine { h with shape := hs, plain := fun hc i hi => h.plain hc i (mem_cons_of_mem _ hi),
                    links := h.links.congr ?_ rfl rfl rfl,
                    log := hlog.mono ?_ fun i hi => .inl (mem_cons_of_mem _ hi) }
    · simp [Item.isPlain]
    · simp [Item.live]
  | @rotate f i r hc hi hitems hf =>
    have happ : front ++ rest = i :: r := by
      obtain ⟨rfl, rfl⟩ | ⟨rfl, rfl⟩ := hitems <;> rfl
    have hused : Shape.used front rest = i.len + total Item.len r := by
      obtain ⟨rfl, rfl⟩ | ⟨rfl, rfl⟩ := hitems <;> simp [Shape.used]
    have hgap : total Item.len (Shape.gap f) = f := by
      rw [Shape.gap]
      split <;> simp_all
    have hplain : i.isPlain = false := Item.isPlain_of_isClaimed hi
    have hmarks : marks c R (front ++ rest) = (R % c.size, i) :: marks c (R + i.len) r := by
      rw [happ, marks_cons, hplain]
      rfl
    have hmarks' : marks c (R + i.len) (r ++ Shape.gap f ++ [i]) =
        marks c (R + i.len) r ++ [(R % c.size, i)] := by
      have hgapmarks : ∀ q, marks c q (Shape.gap f) = [] := by
        rw [Shape.gap]
        split <;> simp [Item.isPlain]
      have hend : R + i.len + (total Item.len r + f) = R + c.size := by omega
      rw [marks_append, marks_append, hgapmarks, append_nil, total_append, hgap, hend, marks_cons,
        hplain, Nat.add_mod_right]
      rfl
    have hlinks := h.links
    rw [hmarks] at hlinks
    refine ⟨hs, by simp, h.single, fun hc' => ?_, fun hc' => ?_, h.kept, ?_,
      hlog.mono ?_ fun j hj => ?_⟩
    · exact absurd (hc.symm.trans hc') (by simp)
    · exact .inl (Nat.zero_le _)
    · rw [nil_append, hmarks']
      exact (hlinks.rotate hi (h.single hc)).congr rfl rfl rfl rfl
    · have hlive : i.live = [] := by
        obtain ⟨len, kind⟩ := i
        cases kind <;> simp [Item.isClaimed, Item.live] at hi ⊢
      have hgaplive : live (Shape.gap f) = [] := by
        rw [Shape.gap]
        split <;> simp [Item.live]
      rw [happ]
      simp [hlive, hgaplive]
    · rw [happ]
      simp only [nil_append, mem_append, mem_singleton] at hj
      obtain (hj | hj) | rfl := hj
      · exact .inl (mem_cons_of_mem _ hj)
      · rw [Shape.gap] at hj
        split at hj
        · rw [mem_singleton] at hj
          exact .inr (by rw [hj])
        · cases hj
      · exact .inl mem_cons_self

theorem setLoop (hp : ∀ l, s.producers p = some l → l.tmpWrIdxShift = 0)
    (hl : ∀ l', l = some l' → l'.op.Ok c ∧ l'.tmpWrIdxShift = 0 ∧ l'.droppedItem = none) :
    Inv c es { s with producers := update s.producers p l } R front rest k := by
  refine { h with links := h.links.setLoop hp ?_ rfl rfl rfl (h.not_dropping hp) }
  cases l with
  | none => rfl
  | some l' =>
    obtain ⟨hop, hzero, hnone⟩ := hl l' rfl
    exact ⟨hop, by rw [if_pos hzero]; exact ⟨hnone, rfl⟩⟩

theorem nodup_marks : ((marks c R (front ++ rest)).map Prod.fst).Nodup :=
  (h.shape.tiled.nodup (by rw [total_append]; exact h.shape.le)).sublist (filter_sublist.map _)

end

theorem marks_plain (xs ys : List Item) (hi : i.isPlain = true) :
    marks c R (front ++ (xs ++ i :: ys)) =
      marks c R (front ++ xs) ++ marks c (R + Shape.used front xs + i.len) ys := by
  rw [← append_assoc, marks_append, marks_cons, hi, total_append]
  rfl

theorem post (h : Inv c es s R front rest k) (hl : s.producers p = some l)
    (hnone : l.droppedItem = none) : ∃ b rest',
      (if l.tmpWrIdxShift ≠ 0 then postDropAction c s.buffer l.tmpWrIdxVal l.tmpWrIdxShift
        else s.buffer) = b ∧
      Inv c es { s with
        buffer := b
        producers := update s.producers p (some ⟨l.op, 0, 0, none⟩) } R front rest' k := by
  have hop := h.links.op_ok hl
  by_cases hshift : l.tmpWrIdxShift = 0
  · refine ⟨s.buffer, rest, if_neg (not_not_intro hshift), ?_⟩
    refine h.setLoop (fun l' hl' => ?_) fun l' hl' => ?_
    · obtain rfl : l = l' := by simpa using hl.symm.trans hl'
      exact hshift
    · obtain rfl := Option.some.inj hl'
      exact ⟨hop, rfl, rfl⟩
  obtain ⟨id, ws, off, hmem⟩ := h.links.dropping hl hshift
  obtain ⟨xs, ys, hrest, hptr, hmarks⟩ := h.split hmem rfl
  have hshape := h.shape
  rw [hrest] at hshape
  obtain ⟨b, hb, -, hnext, hs⟩ := hshape.postDropAction rfl
  rw [← hptr] at hb
  have hlog : Log es (front ++ (xs ++ (⟨l.tmpWrIdxShift, .dropping p id ws off⟩ :: ys))) k b.next := by
    rw [← hrest, hnext]
    exact h.log
  have hnodup := h.nodup_marks
  have hlinks := h.links
  rw [hmarks] at hnodup hlinks
  rw [map_append, map_cons, nodup_middle, ← map_append, nodup_cons] at hnodup
  have hpost := hlinks.post hl hnone hshift fun e he heq =>
    hnodup.1 (mem_map.2 ⟨e, he, heq⟩)
  have hmarks' : marks c R (front ++ if ys = [] then xs else xs ++ ⟨l.tmpWrIdxShift, .skip⟩ :: ys) =
      marks c R (front ++ xs) ++ marks c (R + Shape.used front xs + l.tmpWrIdxShift) ys := by
    split
    next hys => rw [hys, marks_nil, append_nil]
    next => exact marks_plain xs ys rfl
  refine ⟨b, _, (if_pos hshift).trans hb, hs, h.claimed, h.single, fun hc => ?_, h.room, h.kept, ?_,
    hlog.mono ?_ fun i hi => ?_⟩
  · have hmem : (⟨l.tmpWrIdxShift, .dropping p id ws off⟩ : Item) ∈ rest := by
      rw [hrest]
      exact mem_append_right _ mem_cons_self
    exact absurd rfl ((h.plain hc _ hmem).2 p id ws off)
  · rw [hmarks']
    exact hpost.congr rfl rfl rfl rfl
  · split <;> simp_all [Item.live]
  split at hi
  · simp only [mem_append, mem_cons] at hi ⊢
    tauto
  simp only [mem_append, mem_cons] at hi ⊢
  obtain hi | hi | rfl | hi := hi
  · exact .inl (.inl hi)
  · exact .inl (.inr (.inl hi))
  · exact .inr rfl
  · exact .inl (.inr (.inr (.inr hi)))

section

variable (h : Inv c es s R front rest k) (hp : ∀ l, s.producers p = some l → l.tmpWrIdxShift = 0)
include h hp

theorem put (hs : Shape c b' R front (rest ++ [⟨n, .packet s.buffer.next ws⟩]))
    (hnext : b'.next = s.buffer.next + 1) :
    Inv c (es ++ [.committed s.buffer.next ws])
      { s with buffer := b', producers := update s.producers p none } R front
      (rest ++ [⟨n, .packet s.buffer.next ws⟩]) k := by
  have h' := h.setLoop (l := none) hp (fun _ h => absurd h nofun)
  refine ⟨hs, h.claimed, h.single, fun hc i hi => ?_, h.room, fun hc => ?_, ?_, ?_⟩
  · obtain hi | rfl := mem_append.1 hi |>.imp_right mem_singleton.1
    · exact h.plain hc i hi
    · exact ⟨rfl, by simp⟩
  · have hkept := h.kept hc
    simpa [takenIds, claimedPackets, Event.takenIds, Event.claimedPackets] using hkept
  · refine (h'.links.event (fun _ => rfl) (fun _ => rfl)).congr ?_ rfl rfl rfl
    simp [Item.isPlain]
  · rw [hnext, ← append_assoc]
    exact h.log.put

theorem reserve (hn : 0 < n) (hfit : n + Shape.used front rest ≤ c.size)
    (hs : Shape c b' R front (rest ++ [⟨n, .pending s.buffer.next⟩]))
    (hnext : b'.next = s.buffer.next + 1) :
    Inv c es
      { s with
        buffer := b'
        producers := update s.producers p none
        allocs := s.allocs ++ [⟨s.buffer.tmpWrIdx, n⟩] } R front
      (rest ++ [⟨n, .pending s.buffer.next⟩]) k := by
  have h' := h.setLoop (l := none) hp (fun _ h => absurd h nofun)
  have hptr : ∀ e ∈ marks c R (front ++ rest), e.1 ≠ s.buffer.tmpWrIdx := by
    intro e he
    rw [h.shape.tmpWr]
    refine h.shape.tiled.start_ne (mem_marks.1 he).1 ?_ ?_
    · rw [total_append]
    · rw [Shape.used] at hfit
      omega
  refine ⟨hs, h.claimed, h.single, fun hc i hi => ?_, h.room, h.kept, ?_, ?_⟩
  · obtain hi | rfl := mem_append.1 hi |>.imp_right mem_singleton.1
    · exact h.plain hc i hi
    · exact ⟨rfl, by simp⟩
  · refine (h'.links.reserve n s.buffer.next hptr).congr ?_ rfl rfl rfl
    rw [h.shape.tmpWr, ← append_assoc, marks_append, total_append]
    rfl
  · rw [hnext, ← append_assoc]
    exact h.log.reserve

end

theorem drop (h : Inv c es s R [] (⟨n, .packet k' ws⟩ :: r) k) (hl : s.producers p = some l)
    (hzero : l.tmpWrIdxShift = 0) (hn : n + off ≠ 0) (hc : c.overwrite = true)
    (hval : val = s.buffer.tmpWrIdx)
    (hs : Shape c b' (R + n) [] (r ++ [⟨n + off, .dropping p k' ws off⟩]))
    (hnext : b'.next = s.buffer.next) :
    Inv c (es ++ [.dropped p k'])
      { s with
        buffer := b'
        producers := update s.producers p (some ⟨l.op, n + off, val, some (val + off)⟩) }
      (R + n) [] (r ++ [⟨n + off, .dropping p k' ws off⟩]) (k + 1) := by
  have hp : ∀ l, s.producers p = some l → l.tmpWrIdxShift = 0 := by
    intro l' hl'
    obtain rfl : l = l' := by simpa using hl.symm.trans hl'
    exact hzero
  have hdropping := h.not_dropping hp
  have hlinks := h.links
  have hdrop := hlinks.drop val k' off ws hl hzero hn hdropping
  refine ⟨hs, nofun, h.single, fun hc' => ?_, fun hc' => ?_, fun hc' => ?_,
    hdrop.congr ?_ rfl rfl rfl, ?_⟩
  · exact absurd (hc.symm.trans hc') nofun
  · exact .inl (Nat.zero_le _)
  · exact absurd (hc.symm.trans hc') (by simp)
  · have hW := h.shape.tmpWr
    simp only [total_nil, zero_add] at hW
    rw [nil_append, marks_append, hval, hW, add_assoc]
    rfl
  rw [hnext]
  refine (h.log.take (i := ⟨n + off, .dropping p k' ws off⟩) rfl rfl
    (fun _ => rfl) ?_ ?_ (.inl rfl) rfl (by simp) nofun fun j hj => ?_).2
  · simp [Item.live]
  · exact h.log.stored _ mem_cons_self _ (mem_singleton_self _)
  · simp only [mem_append, mem_cons] at hj ⊢
    tauto

theorem turn (h : Inv c es s R front rest k) (hl : s.producers p = some ⟨op, 0, 0, none⟩) :
    ∃ R' front' rest' k',
      Inv c (es ++ (producerTurn c s p ⟨op, 0, 0, none⟩).2) (producerTurn c s p ⟨op, 0, 0, none⟩).1
        R' front' rest' k' := by
  have hop : op.Ok c := h.links.op_ok hl
  have hp : ∀ l, s.producers p = some l → l.tmpWrIdxShift = 0 := by
    intro l' hl'
    obtain rfl : ⟨op, 0, 0, none⟩ = l' := by simpa using hl.symm.trans hl'
    rfl
  obtain ⟨b', t, heq, hspec⟩ := turn_spec h.shape h.claimed h.length_le hop p
  rw [producerTurn, if_neg (not_not_intro rfl), heq]
  cases hspec with
  | put hpacket hws hs =>
    simp only [hpacket]
    exact ⟨R, front, _, k, h.put hp hs rfl⟩
  | alloc hpacket hn hfit hs =>
    simp only [hpacket, append_nil]
    exact ⟨R, front, _, k, h.reserve hp hn hfit hs rfl⟩
  | drop hdrop =>
    cases hdrop with
    | quiet ht hq hs hnext =>
      have h' := h.quiet hq hs hnext
      obtain rfl | rfl := ht
      · simp only [append_nil]
        refine ⟨_, _, _, k, h'.setLoop hp fun l' hl' => ?_⟩
        obtain rfl := Option.some.inj hl'
        exact ⟨hop, rfl, rfl⟩
      · simp only [append_nil]
        exact ⟨_, _, _, k, h'.setLoop hp fun _ h => absurd h nofun⟩
    | @dropped n id ws r hc hfront hrest hid hnext hitem hs =>
      subst hfront hrest
      obtain ⟨hn, -⟩ := h.shape.oldest rfl
      dsimp only at hn ⊢
      rw [hid, ← hitem]
      exact ⟨_, _, _, k + 1, h.drop hl rfl (by omega) hc rfl hs hnext⟩

theorem producerTurn_eq
    (hb : (if l.tmpWrIdxShift ≠ 0 then postDropAction c s.buffer l.tmpWrIdxVal l.tmpWrIdxShift
      else s.buffer) = b) :
    producerTurn c s p l = producerTurn c
      { s with buffer := b, producers := update s.producers p (some ⟨l.op, 0, 0, none⟩) } p
      ⟨l.op, 0, 0, none⟩ := by
  simp [producerTurn, hb]

section

variable (h : Inv c es s R front rest k)
include h

theorem notify {l : Loop} {item : ℕ} (hl : s.producers p = some l)
    (hitem : l.droppedItem = some item) :
    Inv c (es ++ (notify c s p l item).2) (notify c s p l item).1 R front rest k := by
  obtain ⟨id, ws, off, hmem, rfl, hids⟩ := h.links.dropped hl hitem
  have hin := mem_of_mem_placed (mem_marks.1 hmem).1
  obtain ⟨hpos, -, -, -, hok⟩ := h.shape.tiled _ (mem_marks.1 hmem).1
  -- the valid bit is clear already
  have hbuf : update s.buffer.buf (l.tmpWrIdxVal + off)
      { s.buffer.buf (l.tmpWrIdxVal + off) with valid := false } = s.buffer.buf := by
    rw [← hok.valid, update_eq_self]
  have heq : MpscPbuf.notify c s p l (l.tmpWrIdxVal + off) =
      ({ s with producers := update s.producers p (some { l with droppedItem := none }) },
        [.notified p id ws]) := by
    rw [MpscPbuf.notify]
    split <;> simp [hbuf, hok.stamp, hok.packetAt]
  have hcommitted := h.log.stored _ hin (id, ws) (mem_singleton_self _)
  rw [heq]
  refine ⟨h.shape, h.claimed, h.single, h.plain, h.room, fun hc => ?_,
    h.links.notify hl hpos.ne' hmem hids, h.log.notify hcommitted⟩
  have hkept := h.kept hc
  simpa [takenIds, claimedPackets, Event.takenIds, Event.claimedPackets] using hkept

theorem fill (ha : a ∈ s.allocs) (hj : j < a.wlen)
    (hw : j = 0 → w.valid = (s.buffer.buf a.ptr).valid ∧ w.busy = (s.buffer.buf a.ptr).busy) :
    Inv c es { s with buffer.buf := update s.buffer.buf (a.ptr + j) w } R front rest k := by
  obtain ⟨id, hmem⟩ := h.links.allocs a ha
  obtain ⟨xs, ys, rfl, hptr, -⟩ := h.split hmem rfl
  exact { h with
    shape := h.shape.fill hptr hj hw
    links := h.links.congr rfl rfl rfl rfl }

theorem commit (ha : s.allocs[j]? = some a) (hwlen : c.getWlen (s.buffer.buf a.ptr).data = a.wlen) :
    ∃ rest', Inv c (es ++ (commit c s j a.ptr).2) (commit c s j a.ptr).1 R front rest' k := by
  obtain ⟨id, hmem⟩ := h.links.allocs a (mem_of_getElem? ha)
  obtain ⟨xs, ys, rfl, hptr, hmarks⟩ := h.split hmem rfl
  have hs := h.shape.commit hptr hwlen
  obtain ⟨-, -, hok⟩ := hs.item
  rw [← hptr] at hok
  have hlinks := h.links
  rw [hmarks] at hlinks
  have hlive : (live (front ++ (xs ++ ⟨a.wlen, .pending id⟩ :: ys))).Nodup := by
    rw [h.log.live]
    exact nodup_range'
  have hin : (⟨a.wlen, .pending id⟩ : Item) ∈ front ++ (xs ++ ⟨a.wlen, .pending id⟩ :: ys) := by simp
  refine ⟨xs ++ ⟨a.wlen, .packet id (contents s.buffer.buf a.ptr a.wlen)⟩ :: ys, ?_⟩
  rw [MpscPbuf.commit, hwlen, hok.packetAt, hok.stamp]
  refine ⟨hs, h.claimed, h.single, fun hc i hi => ?_, h.room, fun hc => ?_, ?_, ?_⟩
  · simp only [mem_append, mem_cons] at hi
    obtain hi | rfl | hi := hi
    · exact h.plain hc i (by simp [hi])
    · exact ⟨rfl, by simp⟩
    · exact h.plain hc i (by simp [hi])
  · have hkept := h.kept hc
    simpa [takenIds, claimedPackets, Event.takenIds, Event.claimedPackets] using hkept
  · rw [marks_plain xs ys rfl]
    exact ((hlinks.commit ha).event (fun _ => rfl) (fun _ => rfl)).congr rfl rfl rfl rfl
  refine h.log.commit (i := ⟨a.wlen, .packet id (contents s.buffer.buf a.ptr a.wlen)⟩) rfl ?_ le_rfl
    (h.log.pending_lt hin rfl) (h.log.pending _ hin id rfl) fun j hj => ?_
  · rw [← h.log.live]
    simp [Item.live]
  · -- no other item has the number
    have hne : ∀ j, j ∈ front ∨ j ∈ xs ∨ j ∈ ys → j.kind ≠ .pending id := by
      intro j hj hid
      have hmem : id ∈ live (front ++ xs ++ ys) :=
        mem_flatMap.2 ⟨j, by simpa using hj, by simp [Item.live, hid]⟩
      have hlive' : live (front ++ (xs ++ ⟨a.wlen, .pending id⟩ :: ys)) =
          live (front ++ xs) ++ id :: live ys := by
        simp [Item.live]
      rw [hlive', nodup_middle, ← live_append, nodup_cons] at hlive
      exact hlive.1 hmem
    simp only [mem_append, mem_cons] at hj ⊢
    obtain hj | hj | rfl | hj := hj
    · exact .inr ⟨.inl hj, hne j (.inl hj)⟩
    · exact .inr ⟨.inr (.inl hj), hne j (.inr (.inl hj))⟩
    · exact .inl rfl
    · exact .inr ⟨.inr (.inr (.inr hj)), hne j (.inr (.inr hj))⟩

theorem not_claimed (ha : Apart c s .claim) : ∀ i ∈ rest, i.isClaimed = false := by
  obtain hheld | ⟨hc, -⟩ := ha
  · exact (h.of_held_nil hheld).2
  · exact fun i hi => (h.plain hc i hi).1

theorem room_of_apart (ha : Apart c s .claim) (hnone : ¬claimsNone c s.buffer)
    (hn : c.getWlen (s.buffer.buf s.buffer.tmpRdIdx).data = n) (hle : n ≤ c.size) :
    front = [] ∨ total Item.len front + n ≠ c.size := by
  obtain hheld | ⟨-, hapart⟩ := ha
  · exact .inl (h.of_held_nil hheld).1
  · refine .inr fun hfull => (hapart hnone).2 ?_
    rw [hn, h.shape.rd, h.shape.tmpRd, idxInc_mod h.shape.pos hle, add_assoc, hfull,
      Nat.add_mod_right]

end

theorem claimsNone_nil (h : Inv c es s R front [] k) (ha : Apart c s .claim) :
    claimsNone c s.buffer ∧ ∀ x ∈ committedPackets es, x.1 ≠ k := by
  have hpos := h.shape.pos
  constructor
  · by_contra hnone
    refine hnone (.inl (h.shape.available_eq_zero ?_))
    rw [h.shape.full, decide_eq_false_iff_not, total_nil, add_zero]
    intro hfull
    have hne : front ≠ [] := by
      rintro rfl
      rw [total_nil] at hfull
      omega
    -- the whole buffer is one claimed packet, which would be claimed again
    have hone : front.length ≤ 1 := by
      cases hc : c.overwrite with
      | true => exact h.length_le hc
      | false =>
        obtain hone | hlt := h.room hc
        · exact hone
        · omega
    obtain ⟨i, rfl⟩ : ∃ i, front = [i] := by
      cases front with
      | nil => exact absurd rfl hne
      | cons i fr =>
        rw [length_cons] at hone
        rw [length_eq_zero_iff.1 (show fr.length = 0 by omega)]
        exact ⟨i, rfl⟩
    have hi := h.claimed i mem_cons_self
    have htmpRd : s.buffer.tmpRdIdx = s.buffer.rdIdx := by
      rw [h.shape.tmpRd, hfull, Nat.add_mod_right, h.shape.rd]
    obtain ⟨-, -, -, hok⟩ := h.shape.oldest rfl
    rw [← htmpRd] at hok
    obtain ⟨len, kind⟩ := i
    cases kind with
    | claimed id ws =>
      simp only [total_cons, total_nil, Nat.add_zero] at hfull
      obtain hheld | ⟨-, hapart⟩ := ha
      · exact hne (h.of_held_nil hheld).1
      · refine (hapart hnone).2 ?_
        rw [hok.wlen, htmpRd, h.shape.rd, idxInc_mod hpos hfull.le, hfull, Nat.add_mod_right]
    | _ => exact absurd hi (by simp [Item.isClaimed])
  · intro x hx
    have hlive := h.log.live
    rw [append_nil, live_of_claimed h.claimed] at hlive
    have hlen := congrArg length hlive
    rw [length_nil, length_range'] at hlen
    have hlt := h.log.lt x hx
    omega

inductive ClaimSpec (c : Config) (es : List Event) (s : State) (rest : List Item) (k : ℕ) :
    State × List Event → Prop
  | none : claimsNone c s.buffer →
      (∀ x ∈ committedPackets es, x.1 ≠ k) ∨
        c.overwrite = true ∧ (∃ p l, s.producers p = some l ∧ l.tmpWrIdxShift ≠ 0) →
      ClaimSpec c es s rest k (s, [])
  | skip {s' : State} {R' : ℕ} {r : List Item} : ¬claimsNone c s.buffer → s'.held = [] →
      Inv c es s' R' [] r k → r.length < rest.length → s'.producers = s.producers →
      ClaimSpec c es s rest k (s', [])
  | packet {s' : State} {ws : List Word} {R' : ℕ} {front' rest' : List Item} :
      ¬claimsNone c s.buffer → (k, ws) ∈ committedPackets es →
      Inv c (es ++ [.claimed k ws]) s' R' front' rest' (k + 1) →
      ClaimSpec c es s rest k (s', [.claimed k ws])

theorem claim_skip (hnone : ¬claimsNone c s.buffer)
    (hskip : getSkip (s.buffer.buf s.buffer.tmpRdIdx) = skip) (hne : skip ≠ 0) :
    claim c s = ({ s with
      buffer := rdIdxInc c { s.buffer with tmpRdIdx := idxInc c s.buffer.tmpRdIdx skip } skip }, []) := by
  simp [claim, hnone, hskip, hne]

theorem claim_packet (hnone : ¬claimsNone c s.buffer)
    (hvalid : (s.buffer.buf s.buffer.tmpRdIdx).valid = true)
    (hn : c.getWlen (s.buffer.buf s.buffer.tmpRdIdx).data = n) (hb : { s.buffer with
      buf := update s.buffer.buf s.buffer.tmpRdIdx
        { s.buffer.buf s.buffer.tmpRdIdx with busy := true }
      tmpRdIdx := idxInc c s.buffer.tmpRdIdx n } = b') :
    claim c s = ({ s with buffer := b', held := s.held ++ [s.buffer.tmpRdIdx] },
      [.claimed (b'.stamp s.buffer.tmpRdIdx) (packetAt c b' s.buffer.tmpRdIdx)]) := by
  subst hb
  have hpacket : ¬(getSkip (s.buffer.buf s.buffer.tmpRdIdx) ≠ 0 ∨
      ¬isValid (s.buffer.buf s.buffer.tmpRdIdx) = true) := by
    simp [Shape.getSkip_of_valid hvalid, isValid, hvalid]
  rw [claim, if_neg hnone, if_neg hpacket, hn]

theorem claimPacket {id : ℕ} (h : Inv c es s R front (⟨n, .packet id ws⟩ :: r) k)
    (ha : Apart c s .claim) : id = k ∧ ∃ s', ¬claimsNone c s.buffer ∧ (id, ws) ∈ committedPackets es ∧
      claim c s = (s', [.claimed id ws]) ∧
      Inv c (es ++ [.claimed id ws]) s' R (front ++ [⟨n, .claimed id ws⟩]) r (k + 1) := by
  have hnot := h.not_claimed ha
  obtain ⟨-, -, hok⟩ := h.shape.next
  have hok : PacketAt c s.buffer s.buffer.tmpRdIdx n id ws true false := hok
  have hnone : ¬claimsNone c s.buffer := by
    rw [claimsNone, not_or]
    exact ⟨h.shape.available_ne_zero rfl, by simp [isInvalid, hok.valid]⟩
  have hle := h.shape.le
  simp only [total_cons] at hle
  have hroom := h.room_of_apart ha hnone hok.wlen (by omega)
  have hs := h.shape.claimPacket
  obtain ⟨b', hb⟩ : ∃ b', { s.buffer with
      buf := update s.buffer.buf s.buffer.tmpRdIdx
        { s.buffer.buf s.buffer.tmpRdIdx with busy := true }
      tmpRdIdx := idxInc c s.buffer.tmpRdIdx n } = b' := ⟨_, rfl⟩
  have hok' : PacketAt c b' s.buffer.tmpRdIdx n id ws true true := by
    rw [← hb]
    exact hok.update rfl rfl rfl hok.valid rfl
  have hnext : b'.next = s.buffer.next := by rw [← hb]
  rw [hb] at hs
  have hcommitted := h.log.stored _ (mem_append_right _ mem_cons_self) (id, ws)
    (mem_singleton_self _)
  have hlive : live (front ++ ⟨n, .packet id ws⟩ :: r) =
      id :: live (front ++ [⟨n, .claimed id ws⟩] ++ r) := by
    simp [live_of_claimed h.claimed, Item.live]
  obtain ⟨hid, hlog⟩ := h.log.take (i := ⟨n, .claimed id ws⟩) (e := .claimed id ws)
    rfl rfl (fun _ => rfl) hlive hcommitted (.inr rfl) rfl
    (by simp [Event.claimedPackets]) (by simp) fun j hj => by
      simp only [mem_append, mem_cons] at hj ⊢
      tauto
  have hlinks := h.links
  rw [marks_append, marks_cons] at hlinks
  have hclaim := hlinks.claim (e := (s.buffer.tmpRdIdx, ⟨n, .claimed id ws⟩)) rfl
    (filter_marks fun i hi => hnot i (mem_cons_of_mem _ hi))
  have heq := claim_packet hnone hok.valid hok.wlen hb
  rw [hok'.stamp, hok'.packetAt] at heq
  refine ⟨hid, _, hnone, hcommitted, heq, hs, fun i hi => ?_, fun hc => ?_, fun hc i hi => ?_,
    fun hc => ?_, fun hc => ?_, ?_, ?_⟩
  · obtain hi | rfl := mem_append.1 hi |>.imp_right mem_singleton.1
    · exact h.claimed i hi
    · rfl
  · obtain hheld | ⟨hc', -⟩ := ha
    · rw [hheld]
      exact le_rfl
    · exact absurd (hc.symm.trans hc') (by simp)
  · exact h.plain hc i (mem_cons_of_mem _ hi)
  · obtain rfl | hne := hroom
    · exact .inl le_rfl
    · rw [total_append, total_cons, total_nil]
      dsimp only
      exact .inr (by omega)
  · have hkept := h.kept hc
    simpa [takenIds, claimedPackets, Event.takenIds, Event.claimedPackets] using hkept
  · refine (hclaim.event (fun _ => rfl) (fun _ => rfl)).congr ?_ rfl rfl rfl
    rw [append_assoc, marks_append, singleton_append, marks_cons,
      if_neg (show ¬Item.isPlain ⟨n, .claimed id ws⟩ = true by simp [Item.isPlain]), h.shape.tmpRd]
    rfl
  · rwa [hnext]

theorem claim_spec (h : Inv c es s R front rest k) (ha : Apart c s .claim) :
    ClaimSpec c es s rest k (claim c s) := by
  have hnot := h.not_claimed ha
  cases rest with
  | nil =>
    obtain ⟨hnone, hnew⟩ := h.claimsNone_nil ha
    rw [claim, if_pos hnone]
    exact .none hnone (.inl hnew)
  | cons i r =>
    obtain ⟨hlen, -, hok⟩ := h.shape.next
    obtain ⟨n, kind⟩ := i
    cases kind with
    | pending id =>
      have hnone : claimsNone c s.buffer := .inr (by simp [isInvalid, hok.1, hok.2.1])
      have hin : (⟨n, .pending id⟩ : Item) ∈ front ++ ⟨n, .pending id⟩ :: r := by simp
      have hid : id = k :=
        h.log.head_eq (l := live r) (by simp [live_of_claimed h.claimed, Item.live])
      rw [claim, if_pos hnone]
      exact .none hnone (.inl fun x hx => hid ▸ h.log.pending _ hin id rfl x hx)
    | dropping p id ws off =>
      have hnone : claimsNone c s.buffer := .inr (by simp [isInvalid, hok.1.1, hok.1.2])
      have hin : (⟨n, .dropping p id ws off⟩ : Item) ∈ front ++ ⟨n, .dropping p id ws off⟩ :: r := by simp
      obtain ⟨ptr, hptr⟩ := exists_mem_marks hin rfl
      obtain ⟨l, hl, hshift, -⟩ := h.links.droppings _ hptr p id ws off rfl
      dsimp only at hshift hlen
      rw [claim, if_pos hnone]
      refine .none hnone (.inr ⟨?_, p, l, hl, by omega⟩)
      by_contra hc
      exact (h.plain (Bool.not_eq_true _ ▸ hc) _ mem_cons_self).2 p id ws off rfl
    | claimed id ws => exact absurd (hnot _ mem_cons_self) (by simp [Item.isClaimed])
    | skip =>
      have hok : s.buffer.buf s.buffer.tmpRdIdx = ⟨false, true, n⟩ := hok
      have hnone : ¬claimsNone c s.buffer := by
        rw [claimsNone, not_or]
        exact ⟨h.shape.available_ne_zero rfl, by simp [isInvalid, hok]⟩
      have hskip : getSkip (s.buffer.buf s.buffer.tmpRdIdx) = n := by
        rw [hok]
        rfl
      have hheld : s.held = [] := by
        obtain hheld | ⟨-, hapart⟩ := ha
        · exact hheld
        · exact absurd (hskip.symm.trans (hapart hnone).1) hlen.ne'
      obtain rfl := (h.of_held_nil hheld).1
      rw [claim_skip hnone hskip hlen.ne']
      exact .skip hnone hheld (h.quiet (.pop rfl rfl) h.shape.claimSkip rfl) (Nat.lt_succ_self _) rfl
    | packet id ws =>
      obtain ⟨rfl, s', hnone, hcommitted, heq, hinv⟩ := h.claimPacket ha
      rw [heq]
      exact .packet hnone hcommitted hinv

theorem live_of_isClaimed (hi : i.isClaimed = true) : i.live = [] := by
  have hlive : live [i] = [] := live_of_claimed fun j hj => by rwa [mem_singleton.1 hj]
  simpa using hlive

theorem freeFront (h : Inv c es s R (i :: fr) rest k) (hheld : s.held = item :: held) :
    Inv c es { s with buffer := MpscPbuf.free c s.buffer item, held } (R + i.len) fr rest k := by
  have hi := h.claimed i mem_cons_self
  have hone : (i :: fr).length ≤ 1 ∨ total Item.len (i :: fr) < c.size := by
    cases hc : c.overwrite with
    | true => exact .inl (h.length_le hc)
    | false => exact h.room hc
  rw [length_cons] at hone
  have hroom : fr = [] ∨ i.len + total Item.len fr < c.size :=
    hone.imp_left fun hone => length_eq_zero_iff.1 (by omega)
  have heq : marks c R (i :: fr ++ rest) = (R % c.size, i) :: marks c (R + i.len) (fr ++ rest) := by
    rw [cons_append, marks_cons, Item.isPlain_of_isClaimed hi]
    rfl
  have hlinks := h.links
  have hmarks := hlinks.held
  rw [hheld, heq, filter_cons, if_pos hi] at hmarks
  obtain ⟨rfl, -⟩ := cons.inj hmarks
  rw [heq] at hlinks
  have hfree := hlinks.free (A := []) hi rfl hheld
  refine ⟨?_, fun j hj => h.claimed j (mem_cons_of_mem _ hj), fun hc => ?_, h.plain, fun _ => ?_,
    h.kept, hfree.congr rfl rfl rfl rfl, ?_⟩
  · rw [← h.shape.rd]
    have hshape := h.shape
    obtain ⟨len, kind⟩ := i
    cases kind with
    | claimed id ws => exact hshape.freeFront hroom
    | _ => exact absurd hi (by simp [Item.isClaimed])
  · have hsingle := h.single hc
    rw [hheld, length_cons] at hsingle
    show held.length ≤ 1
    omega
  · obtain rfl | hlt := hroom
    · exact .inl (Nat.zero_le _)
    · exact .inr (by omega)
  · rw [free_next]
    refine h.log.mono ?_ fun j hj => .inl ?_
    · simp [live_of_isClaimed hi]
    · exact mem_cons_of_mem _ hj

theorem freeRest (h : Inv c es s R [] rest k) (hheld : s.held = item :: held) : ∃ R' rest',
      Inv c es { s with buffer := MpscPbuf.free c s.buffer item, held } R' [] rest' k := by
  have hmarks := h.links.held
  rw [hheld] at hmarks
  have hmem : item ∈ ((marks c R ([] ++ rest)).filter fun e => e.2.isClaimed).map Prod.fst := by
    rw [← hmarks]
    exact mem_cons_self
  obtain ⟨⟨_, i⟩, he, rfl⟩ := mem_map.1 hmem
  obtain ⟨hmem, hi⟩ := mem_filter.1 he
  have hc : c.overwrite = true := by
    by_contra hc
    have := (h.plain (Bool.not_eq_true _ ▸ hc) i (mem_of_mem_placed (mem_marks.1 hmem).1)).1
    exact absurd (hi.symm.trans this) nofun
  have hone := h.single hc
  obtain ⟨xs, ys, hrest, hptr, heq⟩ := exists_of_mem_marks hmem
  subst hrest
  have hlinks := h.links
  rw [heq] at hlinks hmarks
  have hA : (marks c R xs).filter (fun e => e.2.isClaimed) = [] := by
    have hlen := congrArg length hmarks
    rw [← hheld, length_map, filter_append, filter_cons, if_pos hi, length_append,
      length_cons] at hlen
    exact length_eq_zero_iff.1 (by omega)
  have hfree := hlinks.free hi hA hheld
  have hheld' : held.length ≤ 1 := by
    rw [hheld, length_cons] at hone
    omega
  have hshape := h.shape
  have hlog := h.log
  obtain ⟨len, kind⟩ := i
  cases kind with
  | claimed id ws =>
    by_cases hxs : xs = []
    · subst hxs
      rw [total_nil, add_zero, ← h.shape.rd] at hptr
      refine ⟨R + len, ys, ?_, nofun, fun _ => hheld',
        fun hc' => absurd (hc.symm.trans hc') nofun, fun _ => .inl (Nat.zero_le _), h.kept,
        hfree.congr rfl rfl rfl rfl, ?_⟩
      · rw [hptr]
        exact hshape.freeOldest
      · rw [free_next]
        refine hlog.mono ?_ fun j hj => .inl (mem_cons_of_mem _ hj)
        simp [Item.live]
    · refine ⟨R, xs ++ ⟨len, .skip⟩ :: ys, ?_, nofun, fun _ => hheld',
        fun hc' => absurd (hc.symm.trans hc') nofun, fun _ => .inl (Nat.zero_le _), h.kept,
        hfree.congr ?_ rfl rfl rfl, ?_⟩
      · refine hshape.freeMoved hc hxs ?_
        rw [hptr, Shape.used, total_nil, zero_add]
      · rw [marks_plain xs ys rfl, Shape.used, total_nil, zero_add]
        rfl
      rw [free_next]
      refine hlog.mono ?_ fun j hj => ?_
      · simp [Item.live]
      · simp only [nil_append, mem_append, mem_cons] at hj ⊢
        obtain hj | rfl | hj := hj
        · exact .inl (.inl hj)
        · exact .inr rfl
        · exact .inl (.inr (.inr hj))
  | _ => exact absurd hi (by simp [Item.isClaimed])

theorem free (h : Inv c es s R front rest k) (hheld : s.held = item :: held) :
    ∃ R' front' rest',
      Inv c es { s with buffer := MpscPbuf.free c s.buffer item, held } R' front' rest' k := by
  cases front with
  | cons i fr => exact ⟨_, fr, rest, h.freeFront hheld⟩
  | nil =>
    obtain ⟨R', rest', h'⟩ := h.freeRest hheld
    exact ⟨R', [], rest', h'⟩

end Inv

end ZephyrRtos.MpscPbuf
