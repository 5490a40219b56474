import ZephyrRtos.Pbuf.MpscQueue

namespace ZephyrRtos.MpscPbuf

open List Function Lib RingTiles

variable {c : Config} {b b' : Buffer} {R n k f lo hi ptr : ℕ} {i i' : Item}
  {front rest r xs ys is : List Item} {ws : List Word} {wrap : Bool}

section Store

variable {buf : ℕ → Word}

theorem store_of_lt_or_le (h : x < ptr ∨ ptr + ws.length ≤ x) : store buf ptr ws x = buf x := by
  rw [store]
  split
  · rw [getElem?_eq_none (by omega)]
    rfl
  · rfl

theorem store_add (h : j < ws.length) : store buf ptr ws (ptr + j) = ws[j] := by
  rw [store, if_pos (Nat.le_add_right ..), Nat.add_sub_cancel_left, getElem?_eq_getElem h]
  rfl

theorem store_self : store buf ptr (h :: ws) ptr = h := by
  rw [store, if_pos le_rfl, Nat.sub_self]
  rfl

theorem length_contents : (contents buf ptr m).length = m := by simp [contents]

theorem contents_store : contents (store buf ptr ws) ptr ws.length = bare ws := by
  cases ws with
  | nil => rfl
  | cons h t =>
    refine ext_getElem (by rw [length_contents]; rfl) fun j h1 h2 => ?_
    rw [length_contents] at h1
    simp only [contents, getElem_map, getElem_range, bare]
    cases j with
    | zero => rw [if_pos rfl, store_self, getElem_cons_zero]
    | succ j => rw [if_neg (Nat.succ_ne_zero j), store_add h1, getElem_cons_succ, getElem_cons_succ]

end Store

theorem Changed.of_range (hfit : W % c.size + n ≤ c.size)
    (hb : ∀ x, x < W % c.size ∨ W % c.size + n ≤ x → b'.buf x = b.buf x ∧ b'.stamp x = b.stamp x) :
    Changed c b b' W (W + n) := by
  intro x hx
  refine hb x ?_
  by_contra hin
  obtain ⟨j, rfl⟩ := Nat.exists_eq_add_of_le (show W % c.size ≤ x by omega)
  exact hx (W + j) (by omega) (by omega) (add_mod_of_fits (by omega)).symm

namespace Shape

theorem put (h : Shape c b R front rest) (hws : PutOk c ws) (hfit : ws.length + used front rest ≤ c.size)
    (hend : b.tmpWrIdx + ws.length ≤ c.size) :
    Shape c (put c b ws) R front (rest ++ [⟨ws.length, .packet b.next (bare ws)⟩]) := by
  obtain ⟨hd, tl, hcons, hvalid, hbusy, hwlen⟩ := hws
  have hlen : 0 < ws.length := by
    rw [hcons]
    exact Nat.zero_lt_succ _
  have hW : b.tmpWrIdx = (R + used front rest) % c.size := h.tmpWr
  refine h.snoc hlen hfit hend ?_ ?_ rfl rfl rfl rfl rfl
  · refine .of_range (by rw [← hW]; exact hend) fun x hx => ?_
    rw [← hW] at hx
    refine ⟨store_of_lt_or_le hx, update_of_ne ?_ _ _⟩
    dsimp only at hx
    omega
  have hhead : store b.buf b.tmpWrIdx ws b.tmpWrIdx = hd := by rw [hcons, store_self]
  refine ⟨?_, ?_, update_self .., contents_store, ?_⟩
  · show (store b.buf b.tmpWrIdx ws b.tmpWrIdx).valid = true
    rw [hhead, hvalid]
  · show (store b.buf b.tmpWrIdx ws b.tmpWrIdx).busy = false
    rw [hhead, hbusy]
  · show c.getWlen (store b.buf b.tmpWrIdx ws b.tmpWrIdx).data = ws.length
    rw [hhead, hwlen]

section

variable (h : Shape c b R front rest) (hn : 0 < n) (hfit : n + used front rest ≤ c.size)
  (hend : b.tmpWrIdx + n ≤ c.size)
include h hn hfit hend

theorem reserve : Shape c (reserve c b n) R front (rest ++ [⟨n, .pending b.next⟩]) := by
  have hW : b.tmpWrIdx = (R + used front rest) % c.size := h.tmpWr
  refine h.snoc hn hfit hend ?_ ⟨?_, ?_, update_self ..⟩ rfl rfl rfl rfl rfl
  · refine .of_range (by rw [← hW]; exact hend) fun x hx => ?_
    dsimp only at hx
    exact ⟨update_of_ne (by omega) _ _, update_of_ne (by omega) _ _⟩
  · show (update b.buf b.tmpWrIdx _ b.tmpWrIdx).valid = false
    rw [update_self]
  · show (update b.buf b.tmpWrIdx _ b.tmpWrIdx).busy = false
    rw [update_self]

theorem addSkipItem : Shape c (addSkipItem c b n) R front (rest ++ [⟨n, .skip⟩]) := by
  have hW : b.tmpWrIdx = (R + used front rest) % c.size := h.tmpWr
  refine h.snoc hn hfit hend ?_ (update_self ..) rfl rfl rfl rfl rfl
  exact .of_update hW rfl rfl le_rfl (Nat.lt_add_of_pos_right hn)

end

theorem oldest (h : Shape c b R front rest) (hitems : front ++ rest = i :: r) :
    0 < i.len ∧ i.len ≤ c.size ∧ b.rdIdx + i.len ≤ c.size ∧ ItemOk c b b.rdIdx i := by
  have htiled := h.tiled
  rw [hitems] at htiled
  obtain ⟨hlen, hend, hok⟩ := (Tiled.cons.1 htiled).1
  rw [h.rd]
  exact ⟨hlen, by omega, hend, hok⟩

theorem dropItem_skip (h : Shape c b R [] (⟨n, .skip⟩ :: r)) :
    ∃ b', dropItemLocked c b f = ⟨b', true, none, 0⟩ ∧ b'.stamp = b.stamp ∧ b'.next = b.next ∧
      Shape c b' (R + n) [] r := by
  obtain ⟨hn, -, -, hok⟩ := h.oldest rfl
  have hskip : getSkip (b.buf b.rdIdx) = n := by
    rw [show b.buf b.rdIdx = ⟨false, true, n⟩ from hok]
    rfl
  rw [dropItemLocked, hskip, if_pos hn.ne']
  exact ⟨_, rfl, rfl, rfl, h.pop rfl (.of_eq rfl rfl) rfl rfl rfl rfl rfl⟩

theorem getSkip_of_valid (h : w.valid = true) : getSkip w = 0 := by
  rw [getSkip, h]
  simp

theorem getSkip_of_not_busy (h : w.busy = false) : getSkip w = 0 := by
  rw [getSkip, h]
  simp

theorem header_of_not_counted (hok : ItemOk c b ptr i) (hi : i.counted = false) :
    (b.buf ptr).valid = false ∧ (b.buf ptr).busy = false := by
  obtain ⟨len, kind⟩ := i
  cases kind with
  | pending id => exact ⟨hok.1, hok.2.1⟩
  | dropping p id ws off => exact hok.1
  | _ => exact absurd hi (by simp [Item.counted])

theorem dropItem_not_counted (h : Shape c b R front rest) (hitems : front ++ rest = i :: r)
    (hi : i.counted = false) : dropItemLocked c b f = ⟨b, false, none, 0⟩ := by
  obtain ⟨hvalid, hbusy⟩ := header_of_not_counted (h.oldest hitems).2.2.2 hi
  rw [dropItemLocked, getSkip_of_not_busy hbusy]
  simp [isValid, hvalid]

theorem dropItem_keep (hskip : getSkip (b.buf b.rdIdx) = 0) (hc : c.overwrite = false) :
    dropItemLocked c b f = ⟨b, false, none, 0⟩ := by
  rw [dropItemLocked, hskip]
  simp [hc]

theorem dropItem_valid (hc : c.overwrite = true) (hvalid : (b.buf b.rdIdx).valid = true) :
    dropItemLocked c b f = (if (b.buf b.rdIdx).busy then omitBusy else dropOldest) c b f
      (c.getWlen (b.buf b.rdIdx).data) := by
  rw [dropItemLocked, getSkip_of_valid hvalid]
  cases hbusy : (b.buf b.rdIdx).busy <;> simp [hc, isValid, hvalid]

def marked (b : Buffer) (f : ℕ) : ℕ → Word :=
  if f ≠ 0 then Function.update b.buf b.tmpWrIdx ⟨false, false, 0⟩ else b.buf

theorem marked_of_ne (hx : f ≠ 0 → x ≠ b.tmpWrIdx) : marked b f x = b.buf x := by
  rw [marked]
  split
  · exact update_of_ne (hx ‹_›) _ _
  · rfl

theorem dropOldest_eq : MpscPbuf.dropOldest c b f n =
    ⟨{ b with
        rdIdx := idxInc c b.rdIdx n
        tmpRdIdx := idxInc c b.rdIdx n
        tmpWrIdx := idxInc c b.tmpWrIdx (n + f)
        full := true
        buf := update (marked b f) b.rdIdx { marked b f b.rdIdx with valid := false } },
      true, some b.rdIdx, n + f⟩ := by
  rw [MpscPbuf.dropOldest, marked]
  by_cases hf : f = 0
  · simp only [hf]
    rfl
  · simp only [ne_eq, hf]
    rfl

theorem dropOldest {id : ℕ} (h : Shape c b R [] (⟨n, .packet id ws⟩ :: r)) (p : ℕ)
    (hf : f + used [] (⟨n, .packet id ws⟩ :: r) = c.size) (hrd : b.tmpWrIdx + f = b.rdIdx) :
    ∃ b', MpscPbuf.dropOldest c b f n = ⟨b', true, some b.rdIdx, n + f⟩ ∧ b'.stamp = b.stamp ∧
      b'.next = b.next ∧ Shape c b' (R + n) [] (r ++ [⟨n + f, .dropping p id ws f⟩]) := by
  obtain ⟨hn, hle, hend, hok⟩ := h.oldest rfl
  dsimp only at hn hle hend
  have hpos := h.pos
  have hW := h.tmpWr
  simp only [used, total_nil, total_cons, zero_add] at hf hW
  refine ⟨_, dropOldest_eq, rfl, rfl, ?_⟩
  have hpop : Shape c { rdIdxInc c b n with tmpRdIdx := (rdIdxInc c b n).rdIdx } (R + n) [] r :=
    h.pop rfl (.of_eq rfl rfl) rfl rfl rfl rfl rfl
  have hsame : ∀ x, b.rdIdx ≤ x → marked b f x = b.buf x := fun x hx =>
    marked_of_ne fun hf0 => by omega
  have hWsum : R + n + used [] r = R + (n + total Item.len r) := by
    simp only [used, total_nil]
    omega
  refine hpop.snoc (by show 0 < n + f; omega) ?_ ?_ ?_ ?_ rfl rfl rfl ?_ rfl
  · simp only [total_nil]
    omega
  · show b.tmpWrIdx + (n + f) ≤ c.size
    omega
  · rw [hWsum]
    refine .of_range (by rw [← hW]; show b.tmpWrIdx + (n + f) ≤ c.size; omega) fun x hx => ?_
    rw [← hW] at hx
    dsimp only at hx
    refine ⟨?_, rfl⟩
    show update (marked b f) b.rdIdx _ x = b.buf x
    rw [update_of_ne (by omega), marked_of_ne fun _ => by omega]
  · refine ⟨?_, by show f < n + f; omega, ?_⟩
    · show (update (marked b f) b.rdIdx _ b.tmpWrIdx).valid = false ∧
        (update (marked b f) b.rdIdx _ b.tmpWrIdx).busy = false
      by_cases hf0 : f = 0
      · rw [show b.tmpWrIdx = b.rdIdx by omega, update_self, hsame _ le_rfl]
        exact ⟨rfl, hok.busy⟩
      · rw [update_of_ne (by omega), marked, if_pos hf0, update_self]
        exact ⟨rfl, rfl⟩
    · show PacketAt c _ (b.tmpWrIdx + f) (n + f - f) id ws false false
      rw [hrd, Nat.add_sub_cancel]
      have hmarked : PacketAt c { b with buf := marked b f } b.rdIdx n id ws true false :=
        hok.congr hn fun x hx _ => ⟨hsame x hx, rfl⟩
      refine hmarked.update rfl rfl rfl rfl ?_
      rw [hsame _ le_rfl, hok.busy]
  · show true = (false || decide (idxInc c b.tmpWrIdx (n + f) = idxInc c b.rdIdx n))
    rw [hW, h.rd, idxInc_mod hpos (by omega), idxInc_mod hpos hle, show R + (n + total Item.len r) + (n + f) = R + n + c.size by omega]
    simp

def gap (f : ℕ) : List Item := if f ≠ 0 then [⟨f, .skip⟩] else []

section

variable (h : Shape c b R front rest) (hf : f + used front rest = c.size)
  (hend : b.tmpWrIdx + f ≤ c.size)
include h hf hend

theorem addGap :
    ∃ b', (if f ≠ 0 then MpscPbuf.addSkipItem c b f else b) = b' ∧ b'.stamp = b.stamp ∧
      b'.next = b.next ∧ Shape c b' R front (rest ++ gap f) ∧ used front (rest ++ gap f) = c.size := by
  rw [gap]
  split
  next hf0 =>
    refine ⟨_, rfl, rfl, rfl, h.addSkipItem (Nat.pos_of_ne_zero hf0) hf.le hend, ?_⟩
    simp only [used, total_append, total_cons, total_nil] at hf ⊢
    omega
  next hf0 =>
    refine ⟨_, rfl, rfl, rfl, by rwa [append_nil], ?_⟩
    rw [append_nil]
    omega

theorem omitBusy (hi : i.counted = true)
    (hitems : front = [i] ∧ rest = r ∨ front = [] ∧ rest = i :: r) :
    ∃ b' cont, MpscPbuf.omitBusy c b f i.len = ⟨b', cont, none, 0⟩ ∧ b'.stamp = b.stamp ∧
      b'.next = b.next ∧ Shape c b' (R + i.len) [] (r ++ gap f ++ [i]) := by
  have hpos := h.pos
  obtain ⟨b₁, hb₁, hstamp, hnext, h₁, hfull⟩ := h.addGap hf hend
  have happ : front ++ (rest ++ gap f) = i :: (r ++ gap f) := by
    obtain ⟨rfl, rfl⟩ | ⟨rfl, rfl⟩ := hitems <;> rfl
  obtain ⟨-, hle, -⟩ := h₁.oldest happ
  refine ⟨_, _, rfl, ?_, ?_, ?_⟩
  · rwa [hb₁]
  · rwa [hb₁]
  have hrd : (if b₁.rdIdx = b₁.tmpRdIdx then idxInc c b₁.tmpRdIdx i.len else b₁.tmpRdIdx) =
      idxInc c b₁.rdIdx i.len := by
    obtain ⟨rfl, rfl⟩ | ⟨rfl, rfl⟩ := hitems
    · split
      next heq => rw [heq]
      next hne =>
        rw [h₁.tmpRd, h₁.rd, idxInc_mod hpos hle]
        simp
    · rw [if_pos (by rw [h₁.rd, h₁.tmpRd]; rfl), h₁.rd, h₁.tmpRd]
      rfl
  refine h₁.rotate happ ?_ hi hfull (.of_eq ?_ ?_) ?_ rfl rfl ?_ rfl
  · obtain ⟨rfl, rfl⟩ | ⟨rfl, rfl⟩ := hitems
    · simp
    · simp [hi]
  · rw [hb₁]
  · rw [hb₁]
  · rwa [hb₁]
  · rw [hb₁]

end

theorem postDropAction {p id off : ℕ} (h : Shape c b R front (xs ++ i :: ys))
    (hi : i.kind = .dropping p id ws off) :
    ∃ b', MpscPbuf.postDropAction c b ((R + used front xs) % c.size) i.len = b' ∧
      b'.stamp = b.stamp ∧ b'.next = b.next ∧
      Shape c b' R front (if ys = [] then xs else xs ++ ⟨i.len, .skip⟩ :: ys) := by
  have hpos := h.pos
  have hle := h.le
  have hcounted : i.counted = false := by rw [Item.counted, hi]
  have hlen : 0 < i.len ∧ (ys ≠ [] → 0 < total Item.len ys) := by
    obtain ⟨-, htiled⟩ := Tiled.append.1 h.tiled_rest
    obtain ⟨hhead, hys⟩ := Tiled.cons.1 htiled
    exact ⟨hhead.1, hys.total_pos⟩
  simp only [total_append, total_cons] at hle
  rw [MpscPbuf.postDropAction, idxInc_mod hpos (by omega)]
  by_cases hys : ys = []
  · subst hys
    rw [if_pos (by rw [h.tmpWr]; simp [used, add_assoc])]
    exact ⟨_, rfl, rfl, rfl, h.unsnoc hcounted rfl rfl rfl rfl rfl rfl rfl⟩
  rw [if_neg hys]
  -- the items behind it are fewer words than the buffer has
  have hpos' := hlen.2 hys
  rw [if_neg ?_]
  · refine ⟨_, rfl, rfl, rfl, h.replace rfl ?_ ?_ rfl rfl rfl ?_ (by simp [hcounted]) rfl⟩
    · exact .of_update rfl rfl rfl le_rfl (Nat.lt_add_of_pos_right hlen.1)
    · exact update_self ..
    · rw [hcounted]
      rfl
  · rw [h.tmpWr]
    simp only [used, total_append, total_cons]
    exact mod_ne_mod le_rfl (by omega) (by omega) (by omega) (by omega)

theorem item (h : Shape c b R front (xs ++ i :: ys)) :
    0 < i.len ∧ (R + used front xs) % c.size + i.len ≤ c.size ∧
      ItemOk c b ((R + used front xs) % c.size) i := by
  obtain ⟨-, htiled⟩ := Tiled.append.1 h.tiled_rest
  rw [add_assoc] at htiled
  exact (Tiled.cons.1 htiled).1

theorem commit {id : ℕ} (h : Shape c b R front (xs ++ ⟨n, .pending id⟩ :: ys))
    (hptr : ptr = (R + used front xs) % c.size) (hwlen : c.getWlen (b.buf ptr).data = n) :
    Shape c { b with
      buf := update b.buf ptr { b.buf ptr with valid := true }
      wrIdx := idxInc c b.wrIdx n } R front
      (xs ++ ⟨n, .packet id (contents b.buf ptr n)⟩ :: ys) := by
  obtain ⟨hn, -, hvalid, hbusy, hstamp⟩ := h.item
  rw [← hptr] at hvalid hbusy hstamp
  have hpacket : PacketAt c b ptr n id (contents b.buf ptr n) false false :=
    ⟨hvalid, hbusy, hstamp, rfl, hwlen⟩
  refine h.replace rfl (.of_update hptr rfl rfl le_rfl (Nat.lt_add_of_pos_right hn)) ?_ rfl rfl
    rfl rfl (by simp [Item.counted]) rfl
  rw [← hptr]
  exact hpacket.update rfl rfl rfl rfl hbusy

theorem fill {id j : ℕ} {w : Word} (h : Shape c b R front (xs ++ ⟨n, .pending id⟩ :: ys))
    (hptr : ptr = (R + used front xs) % c.size) (hj : j < n)
    (hw : j = 0 → w.valid = (b.buf ptr).valid ∧ w.busy = (b.buf ptr).busy) :
    Shape c { b with buf := update b.buf (ptr + j) w } R front
      (xs ++ ⟨n, .pending id⟩ :: ys) := by
  obtain ⟨hn, hend, hvalid, hbusy, hstamp⟩ := h.item
  rw [← hptr] at hend hvalid hbusy hstamp
  dsimp only at hn hend
  have hpos : ptr + j = (R + used front xs + j) % c.size := by
    rw [hptr] at hend ⊢
    exact (add_mod_of_fits (by omega)).symm
  refine h.replace rfl ?_ ?_ rfl rfl rfl rfl nofun rfl
  · exact .of_update hpos rfl rfl (Nat.le_add_right ..) (Nat.add_lt_add_left hj _)
  rw [← hptr]
  show (update b.buf (ptr + j) w ptr).valid = false ∧
    (update b.buf (ptr + j) w ptr).busy = false ∧ b.stamp ptr = id
  obtain rfl | hj0 := Nat.eq_zero_or_pos j
  · rw [add_zero, update_self, (hw rfl).1, (hw rfl).2]
    exact ⟨hvalid, hbusy, hstamp⟩
  · rw [update_of_ne (by omega)]
    exact ⟨hvalid, hbusy, hstamp⟩

theorem tmpRd_lt (h : Shape c b R front rest) : b.tmpRdIdx < c.size := by
  rw [h.tmpRd]
  exact Nat.mod_lt _ h.pos

theorem available_ne_zero (h : Shape c b R front (i :: r)) (hi : i.counted = true) :
    available c b ≠ 0 := by
  have hlt := h.tmpRd_lt
  have hle := h.le
  have hcle := counted_le r
  have hlen := (Tiled.cons.1 h.tiled_rest).1.1
  rw [available]
  split
  · omega
  next hnot =>
    rw [h.full] at hnot
    simp only [decide_eq_true_eq, total_cons] at hnot hle
    have hne : b.wrIdx ≠ b.tmpRdIdx := by
      rw [h.wr, h.tmpRd]
      simp only [counted_cons, hi, if_true]
      exact mod_ne_mod (by omega) (by omega) le_rfl (by omega) (by omega)
    omega

theorem available_eq_zero (h : Shape c b R front []) (hfull : b.full = false) : available c b = 0 := by
  have heq : b.wrIdx = b.tmpRdIdx := by
    rw [h.wr, h.tmpRd]
    simp
  rw [available, hfull, heq]
  simp

theorem next (h : Shape c b R front (i :: r)) :
    0 < i.len ∧ b.tmpRdIdx + i.len ≤ c.size ∧ ItemOk c b b.tmpRdIdx i := by
  have hi := (Tiled.cons.1 h.tiled_rest).1
  rwa [← h.tmpRd] at hi

theorem claimPacket {id : ℕ} (h : Shape c b R front (⟨n, .packet id ws⟩ :: r)) :
    Shape c { b with
      buf := update b.buf b.tmpRdIdx { b.buf b.tmpRdIdx with busy := true }
      tmpRdIdx := idxInc c b.tmpRdIdx n } R (front ++ [⟨n, .claimed id ws⟩]) r := by
  obtain ⟨hn, -, hok⟩ := h.next
  refine h.claim rfl rfl ?_ ?_ rfl rfl rfl rfl rfl
  · exact .of_update h.tmpRd rfl rfl le_rfl (Nat.lt_add_of_pos_right hn)
  · exact hok.update rfl rfl rfl hok.valid rfl

theorem claimSkip (h : Shape c b R [] (⟨n, .skip⟩ :: r)) :
    Shape c (rdIdxInc c { b with tmpRdIdx := idxInc c b.tmpRdIdx n } n) (R + n) [] r := by
  refine h.pop rfl (.of_eq rfl rfl) rfl ?_ rfl rfl rfl
  rw [h.tmpRd, h.rd]
  rfl

theorem free_rdIdx : MpscPbuf.free c b b.rdIdx =
    { b with
      buf := update b.buf b.rdIdx ⟨false, false, (b.buf b.rdIdx).data⟩
      tmpRdIdx := if b.rdIdx = b.tmpRdIdx then
        idxInc c b.tmpRdIdx (c.getWlen (b.buf b.rdIdx).data) else b.tmpRdIdx
      rdIdx := idxInc c b.rdIdx (c.getWlen (b.buf b.rdIdx).data)
      full := false } := by
  simp only [MpscPbuf.free, or_true, if_true, update_idem, update_self]
  split <;> rfl

theorem free_of_ne (hc : c.overwrite = true) (hne : ptr ≠ b.rdIdx) : MpscPbuf.free c b ptr =
    { b with
      buf := update b.buf ptr
        ⟨false, (b.buf ptr).busy, c.getWlen (b.buf ptr).data⟩ } := by
  simp [MpscPbuf.free, hc, hne]

theorem freeFront {id : ℕ} (h : Shape c b R (⟨n, .claimed id ws⟩ :: front) rest)
    (hroom : front = [] ∨ n + total Item.len front < c.size) :
    Shape c (MpscPbuf.free c b b.rdIdx) (R + n) front rest := by
  obtain ⟨hn, hle, -, hok⟩ := h.oldest rfl
  have hpos := h.pos
  have hlen := h.le
  simp only [total_cons] at hlen
  dsimp only at hn hle
  rw [free_rdIdx, hok.wlen]
  refine h.popFront (Changed.of_update h.rd rfl rfl le_rfl (Nat.lt_add_of_pos_right hn)) rfl ?_ rfl rfl
    rfl
  rw [← h.tmpRd]
  split
  next heq =>
    -- the claimed packets fill the buffer, so there is only one
    rw [h.rd, h.tmpRd, total_cons] at heq
    have hfull := (mod_eq_mod_iff (by omega) (by dsimp only; omega) (by dsimp only; omega)).1 heq.symm
    dsimp only at hfull
    obtain rfl | hlt := hroom
    · rw [total_nil] at hfull
      rw [h.tmpRd, idxInc_mod hpos hle, show n = c.size by omega, Nat.add_mod_right]
    · omega
  next => rfl

theorem freeOldest {id : ℕ} (h : Shape c b R [] (⟨n, .claimed id ws⟩ :: r)) :
    Shape c (MpscPbuf.free c b b.rdIdx) (R + n) [] r := by
  obtain ⟨hn, -, -, hok⟩ := h.oldest rfl
  have htmpRd : b.tmpRdIdx = b.rdIdx := by
    rw [h.tmpRd, h.rd]
    rfl
  rw [free_rdIdx, hok.wlen]
  refine h.pop rfl (.of_update h.rd rfl rfl le_rfl (Nat.lt_add_of_pos_right hn)) rfl ?_ rfl rfl
    rfl
  rw [if_pos htmpRd.symm, htmpRd]

theorem freeMoved {id : ℕ} (h : Shape c b R [] (xs ++ ⟨n, .claimed id ws⟩ :: ys))
    (hc : c.overwrite = true) (hxs : xs ≠ []) (hptr : ptr = (R + used [] xs) % c.size) :
    Shape c (MpscPbuf.free c b ptr) R [] (xs ++ ⟨n, .skip⟩ :: ys) := by
  obtain ⟨hn, -, hok⟩ := h.item
  have hle := h.le
  have hxs0 := (Tiled.append.1 h.tiled_rest).1.total_pos hxs
  simp only [total_append, total_cons] at hle
  dsimp only at hn
  have hne : ptr ≠ b.rdIdx := by
    rw [hptr, h.rd]
    simp only [used]
    exact mod_ne_mod (by omega) (by omega) le_rfl (by omega) (by omega)
  rw [← hptr] at hok
  rw [free_of_ne hc hne, hok.wlen]
  refine h.replace rfl (.of_update hptr rfl rfl le_rfl (Nat.lt_add_of_pos_right hn)) ?_ rfl rfl
    rfl rfl (fun _ => rfl) rfl
  rw [← hptr]
  show update b.buf ptr _ ptr = ⟨false, true, n⟩
  rw [update_self, hok.busy]

end Shape

/-- Moves of the queue that put nothing into it and take nothing out of it. -/
inductive Quiet (c : Config) (R : ℕ) (front rest : List Item) : ℕ → List Item → List Item → Prop
  | stay : Quiet c R front rest R front rest
  | skip {n : ℕ} : Quiet c R front rest R front (rest ++ [⟨n, .skip⟩])
  | pop {n : ℕ} {r : List Item} : front = [] → rest = ⟨n, .skip⟩ :: r →
      Quiet c R front rest (R + n) [] r
  /-- A claimed packet is the oldest. -/
  | rotate {f : ℕ} {i : Item} {r : List Item} : c.overwrite = true → i.isClaimed = true →
      front = [i] ∧ rest = r ∨ front = [] ∧ rest = i :: r → f + Shape.used front rest = c.size →
      Quiet c R front rest (R + i.len) [] (r ++ Shape.gap f ++ [i])

/-- How a turn that drops something ends. -/
inductive DropSpec (c : Config) (b : Buffer) (R : ℕ) (front rest : List Item) (f p : ℕ) :
    Buffer → Turn → Prop
  | quiet {b' : Buffer} {t : Turn} {R' : ℕ} {front' rest' : List Item} : t = .again ∨ t = .failed →
      Quiet c R front rest R' front' rest' → Shape c b' R' front' rest' → b'.next = b.next →
      DropSpec c b R front rest f p b' t
  | dropped {b' : Buffer} {n id : ℕ} {ws : List Word} {r : List Item} : c.overwrite = true →
      front = [] → rest = ⟨n, .packet id ws⟩ :: r → b'.stamp b.rdIdx = id → b'.next = b.next →
      b.tmpWrIdx + f = b.rdIdx →
      Shape c b' (R + n) [] (r ++ [⟨n + f, .dropping p id ws f⟩]) →
      DropSpec c b R front rest f p b' (.dropped b.rdIdx (n + f) b.tmpWrIdx)

theorem dropTurn_eq (h : dropItemLocked c b f = ⟨b', cont, none, 0⟩) :
    dropTurn c b f = (b', if cont then .again else .failed) := by
  rw [dropTurn, h]

theorem dropTurn_omit (h : Shape c b R front rest) (hf : f + Shape.used front rest = c.size)
    (hend : b.tmpWrIdx + f ≤ c.size) (hc : c.overwrite = true) (hi : i.isClaimed = true)
    (hitems : front = [i] ∧ rest = r ∨ front = [] ∧ rest = i :: r) (p : ℕ) :
    ∃ b' t, dropTurn c b f = (b', t) ∧ DropSpec c b R front rest f p b' t := by
  have happ : front ++ rest = i :: r := by
    obtain ⟨rfl, rfl⟩ | ⟨rfl, rfl⟩ := hitems <;> rfl
  obtain ⟨-, -, -, hok⟩ := h.oldest happ
  obtain ⟨len, kind⟩ := i
  cases kind with
  | claimed id ws =>
    obtain ⟨b', cont, hdrop, -, hnext, hs⟩ := h.omitBusy hf hend rfl hitems
    have heq := Shape.dropItem_valid (f := f) hc hok.valid
    rw [hok.busy, hok.wlen] at heq
    exact ⟨_, _, dropTurn_eq (heq.trans hdrop),
      .quiet (by cases cont <;> simp) (.rotate hc hi hitems hf) hs hnext⟩
  | _ => exact absurd hi (by simp [Item.isClaimed])

theorem dropTurn_stay (h : Shape c b R front rest)
    (hdrop : dropItemLocked c b f = ⟨b, false, none, 0⟩) (p : ℕ) :
    ∃ b' t, dropTurn c b f = (b', t) ∧ DropSpec c b R front rest f p b' t :=
  ⟨_, _, dropTurn_eq hdrop, .quiet (.inr rfl) .stay h rfl⟩

theorem dropTurn_spec (h : Shape c b R front rest) (hfront : ∀ i ∈ front, i.isClaimed = true)
    (hone : c.overwrite = true → front.length ≤ 1) (hused : 0 < Shape.used front rest)
    (hf : f + Shape.used front rest = c.size) (hrd : b.tmpWrIdx + f = b.rdIdx) (p : ℕ) :
    ∃ b' t, dropTurn c b f = (b', t) ∧ DropSpec c b R front rest f p b' t := by
  have hend : b.tmpWrIdx + f ≤ c.size := by
    rw [hrd, h.rd]
    exact (Nat.mod_lt _ h.pos).le
  cases front with
  | cons i fr =>
    have hi := hfront i mem_cons_self
    cases hc : c.overwrite with
    | true =>
      have hlen := hone hc
      obtain rfl : fr = [] := by
        rw [length_cons] at hlen
        exact length_eq_zero_iff.1 (by omega)
      exact dropTurn_omit h hf hend hc hi (.inl ⟨rfl, rfl⟩) p
    | false =>
      obtain ⟨-, -, -, hok⟩ := h.oldest rfl
      obtain ⟨len, kind⟩ := i
      cases kind with
      | claimed id ws =>
        exact dropTurn_stay h (Shape.dropItem_keep (Shape.getSkip_of_valid hok.valid) hc) p
      | _ => exact absurd hi (by simp [Item.isClaimed])
  | nil =>
    cases rest with
    | nil => exact absurd hused (by simp [Shape.used])
    | cons i r =>
      obtain ⟨-, -, -, hok⟩ := h.oldest rfl
      obtain ⟨len, kind⟩ := i
      cases kind with
      | pending id => exact dropTurn_stay h (h.dropItem_not_counted rfl rfl) p
      | dropping q id ws off => exact dropTurn_stay h (h.dropItem_not_counted rfl rfl) p
      | skip =>
        obtain ⟨b', hdrop, -, hnext, hs⟩ := h.dropItem_skip
        exact ⟨_, _, dropTurn_eq hdrop, .quiet (.inl rfl) (.pop rfl rfl) hs hnext⟩
      | claimed id ws =>
        cases hc : c.overwrite with
        | true => exact dropTurn_omit h hf hend hc rfl (.inr ⟨rfl, rfl⟩) p
        | false =>
          exact dropTurn_stay h (Shape.dropItem_keep (Shape.getSkip_of_valid hok.valid) hc) p
      | packet id ws =>
        cases hc : c.overwrite with
        | false =>
          exact dropTurn_stay h (Shape.dropItem_keep (Shape.getSkip_of_valid hok.valid) hc) p
        | true =>
          obtain ⟨b', hdrop, hstamp, hnext, hs⟩ := h.dropOldest p hf hrd
          have heq := Shape.dropItem_valid (f := f) hc hok.valid
          rw [hok.busy, if_neg Bool.false_ne_true, hok.wlen] at heq
          refine ⟨b', .dropped b.rdIdx (len + f) b.tmpWrIdx, ?_, ?_⟩
          · rw [dropTurn, heq, hdrop]
          · exact .dropped hc rfl rfl (by rw [hstamp, hok.stamp]) hnext hrd hs

inductive TurnSpec (c : Config) (b : Buffer) (R : ℕ) (front rest : List Item) (op : Op) (p : ℕ) :
    Buffer → Turn → Prop
  | put {ws : List Word} : op.packet = some ws → PutOk c ws →
      Shape c (put c b ws) R front (rest ++ [⟨ws.length, .packet b.next (bare ws)⟩]) →
      TurnSpec c b R front rest op p (put c b ws) .stored
  | alloc : op.packet = none → 0 < op.wlen → op.wlen + Shape.used front rest ≤ c.size →
      Shape c (reserve c b op.wlen) R front (rest ++ [⟨op.wlen, .pending b.next⟩]) →
      TurnSpec c b R front rest op p (reserve c b op.wlen) .stored
  | drop {f : ℕ} {b' : Buffer} {t : Turn} : DropSpec c b R front rest f p b' t →
      TurnSpec c b R front rest op p b' t

theorem turnOf_spec {placed : Buffer} {wait : Bool} {op : Op} (h : Shape c b R front rest)
    (hfront : ∀ i ∈ front, i.isClaimed = true) (hone : c.overwrite = true → front.length ≤ 1) (p : ℕ)
    (hplaced : n + Shape.used front rest ≤ c.size → b.tmpWrIdx + n ≤ c.size →
      TurnSpec c b R front rest op p placed .stored) :
    ∃ b' t, turnOf c b n placed wait = (b', t) ∧ TurnSpec c b R front rest op p b' t := by
  obtain ⟨wrap, f, hfree, hfit, hend, hwrap, hfull⟩ := h.freeSpace
  rw [turnOf, hfree]
  dsimp only
  by_cases hn : n ≤ f
  · rw [if_pos hn]
    exact ⟨_, _, rfl, hplaced (by omega) (by omega)⟩
  rw [if_neg hn]
  cases wrap with
  | true =>
    exact ⟨_, _, rfl, .drop (f := f) (.quiet (.inl rfl) .skip
      (h.addSkipItem (hwrap rfl) hfit hend) rfl)⟩
  | false =>
    cases wait with
    | true =>
      exact ⟨_, _, rfl, .drop (f := f) (.quiet (.inl rfl) .stay h rfl)⟩
    | false =>
      obtain ⟨hused, hsum, hrd⟩ := hfull rfl
      obtain ⟨b', t, heq, hspec⟩ := dropTurn_spec h hfront hone hused hsum hrd p
      exact ⟨b', t, heq, .drop hspec⟩

theorem turn_spec {op : Op} (h : Shape c b R front rest) (hfront : ∀ i ∈ front, i.isClaimed = true)
    (hone : c.overwrite = true → front.length ≤ 1) (hop : op.Ok c) (p : ℕ) :
    ∃ b' t, op.turn c b = (b', t) ∧ TurnSpec c b R front rest op p b' t := by
  cases op with
  | putWordExt item data =>
    exact turnOf_spec h hfront hone p fun hfit hend => .put rfl hop (h.put hop hfit hend)
  | putData data =>
    exact turnOf_spec h hfront hone p fun hfit hend => .put rfl hop (h.put hop hfit hend)
  | alloc wlen wait =>
    exact turnOf_spec h hfront hone p fun hfit hend => .alloc rfl hop hfit (h.reserve hop hfit hend)
  | putWord item =>
    obtain ⟨wrap, f, hfree, hfit, hend, hwrap, hfull⟩ := h.freeSpace
    rw [Op.turn, putWordTurn, hfree]
    dsimp only
    by_cases hf : f = 0
    · rw [if_neg (not_not_intro hf)]
      have hnot : wrap = false := by
        cases wrap with
        | false => rfl
        | true => exact absurd (hwrap rfl) (by omega)
      obtain ⟨hused, hsum, hrd⟩ := hfull hnot
      obtain ⟨b', t, heq, hspec⟩ := dropTurn_spec h hfront hone hused hsum hrd p
      exact ⟨b', t, heq, .drop hspec⟩
    · rw [if_pos hf]
      refine ⟨_, _, rfl, .put rfl hop (h.put hop ?_ ?_)⟩
      · rw [length_singleton]
        omega
      · rw [length_singleton]
        omega

end ZephyrRtos.MpscPbuf
