import ZephyrRtos.Lib.RingTiles
import ZephyrRtos.Pbuf.Mpsc

/-! The packets of a buffer as a queue of items, and what the operations on the indices do to it. -/

namespace ZephyrRtos.MpscPbuf

open List Function Lib RingTiles

inductive Kind
  | pending (id : ℕ)
  | packet (id : ℕ) (ws : List Word)
  | claimed (id : ℕ) (ws : List Word)
  | skip
  /-- Producer `p` has dropped the packet that is `off` words into the item. -/
  | dropping (p id : ℕ) (ws : List Word) (off : ℕ)

structure Item where
  len : ℕ
  kind : Kind

namespace Item

def counted (i : Item) : Bool :=
  match i.kind with
  | .pending _ | .dropping .. => false
  | _ => true

def isClaimed (i : Item) : Bool :=
  match i.kind with
  | .claimed .. => true
  | _ => false

def live (i : Item) : List ℕ :=
  match i.kind with
  | .pending id | .packet id _ => [id]
  | _ => []

end Item

variable {c : Config} {b b' : Buffer} {R n k lo hi ptr : ℕ} {i i' : Item}
  {front rest r xs ys is : List Item}

def counted (is : List Item) : ℕ := total (fun i : Item => if i.counted then i.len else 0) is

structure PacketAt (c : Config) (b : Buffer) (ptr len id : ℕ) (ws : List Word)
    (valid busy : Bool) : Prop where
  valid : (b.buf ptr).valid = valid
  busy : (b.buf ptr).busy = busy
  stamp : b.stamp ptr = id
  contents : contents b.buf ptr len = ws
  wlen : c.getWlen (b.buf ptr).data = len

def ItemOk (c : Config) (b : Buffer) (ptr : ℕ) (i : Item) : Prop :=
  match i.kind with
  | .pending id => (b.buf ptr).valid = false ∧ (b.buf ptr).busy = false ∧ b.stamp ptr = id
  | .packet id ws => PacketAt c b ptr i.len id ws true false
  | .claimed id ws => PacketAt c b ptr i.len id ws true true
  | .skip => b.buf ptr = ⟨false, true, i.len⟩
  | .dropping _ id ws off => ((b.buf ptr).valid = false ∧ (b.buf ptr).busy = false) ∧ off < i.len ∧
      PacketAt c b (ptr + off) (i.len - off) id ws false false

/-- The indices and the words of a buffer with the claimed packets `front` and then `rest`. -/
structure Shape (c : Config) (b : Buffer) (R : ℕ) (front rest : List Item) : Prop where
  pos : 0 < c.size
  tiled : Tiled Item.len c.size (ItemOk c b) R (front ++ rest)
  le : total Item.len front + total Item.len rest ≤ c.size
  rd : b.rdIdx = R % c.size
  tmpRd : b.tmpRdIdx = (R + total Item.len front) % c.size
  tmpWr : b.tmpWrIdx = (R + (total Item.len front + total Item.len rest)) % c.size
  wr : b.wrIdx = (R + (total Item.len front + counted rest)) % c.size
  full : b.full = decide (total Item.len front + total Item.len rest = c.size)

section Words

@[simp] theorem counted_nil : counted [] = 0 := rfl

@[simp] theorem counted_cons :
    counted (i :: is) = (if i.counted then i.len else 0) + counted is := total_cons

@[simp] theorem counted_append : counted (xs ++ ys) = counted xs + counted ys := total_append

theorem counted_le (is : List Item) : counted is ≤ total Item.len is := by
  induction is with
  | nil => exact le_rfl
  | cons i is ih =>
    rw [counted_cons, total_cons]
    split <;> omega

theorem idxInc_eq (hidx : idx < c.size) (hval : val ≤ c.size) :
    idxInc c idx val = (idx + val) % c.size := by
  rw [idxInc]
  split
  next h =>
    obtain ⟨m, hm⟩ := (Nat.and_sub_one_eq_zero_iff_isPowerOfTwo h.1).1 h.2
    rw [hm, Nat.and_two_pow_sub_one_eq_mod]
  next h =>
    split
    · rw [Nat.mod_eq_sub_mod ‹_›, Nat.mod_eq_of_lt (by omega)]
    · rw [Nat.mod_eq_of_lt (by omega)]

theorem idxInc_mod (hpos : 0 < c.size) (hval : val ≤ c.size) :
    idxInc c (q % c.size) val = (q + val) % c.size := by
  rw [idxInc_eq (Nat.mod_lt _ hpos) hval, Nat.mod_add_mod]

def Changed (c : Config) (b b' : Buffer) (lo hi : ℕ) : Prop :=
  ∀ x, (∀ u, lo ≤ u → u < hi → x ≠ u % c.size) → b'.buf x = b.buf x ∧ b'.stamp x = b.stamp x

theorem Changed.of_eq (hbuf : b'.buf = b.buf) (hstamp : b'.stamp = b.stamp) :
    Changed c b b' lo hi := by
  intro x _
  rw [hbuf, hstamp]
  exact ⟨rfl, rfl⟩

theorem Changed.of_update (hptr : ptr = q % c.size) (hbuf : b'.buf = update b.buf ptr w)
    (hstamp : b'.stamp = b.stamp) (hlo : lo ≤ q) (hhi : q < hi) : Changed c b b' lo hi := by
  intro x hx
  rw [hbuf, hstamp, hptr, update_of_ne (hx q hlo hhi)]
  exact ⟨rfl, rfl⟩

theorem contents_congr (h : ∀ x, ptr ≤ x → x < ptr + m → buf' x = buf x) :
    contents buf' ptr m = contents buf ptr m := by
  refine map_congr_left fun j hj => ?_
  have hj := mem_range.1 hj
  rw [h ptr le_rfl (by omega), h (ptr + j) (by omega) (by omega)]

theorem contents_update {buf : ℕ → Word} {m : ℕ} {w : Word} (hw : w.data = (buf ptr).data) :
    contents (update buf ptr w) ptr m = contents buf ptr m := by
  refine map_congr_left fun j _ => ?_
  split
  · rw [update_self, hw]
  · rw [update_of_ne (by omega)]

theorem PacketAt.congr {len id : ℕ} {ws : List Word} {valid busy : Bool} (hlen : 0 < len)
    (h : PacketAt c b ptr len id ws valid busy)
    (hb : ∀ x, ptr ≤ x → x < ptr + len → b'.buf x = b.buf x ∧ b'.stamp x = b.stamp x) :
    PacketAt c b' ptr len id ws valid busy := by
  have hhead := hb ptr le_rfl (by omega)
  refine ⟨?_, ?_, ?_, ?_, ?_⟩
  · rw [hhead.1, h.valid]
  · rw [hhead.1, h.busy]
  · rw [hhead.2, h.stamp]
  · rw [contents_congr fun x h1 h2 => (hb x h1 h2).1, h.contents]
  · rw [hhead.1, h.wlen]

theorem PacketAt.update {len id : ℕ} {ws : List Word} {valid valid' busy busy' : Bool} {w : Word}
    (h : PacketAt c b ptr len id ws valid busy)
    (hbuf : b'.buf = update b.buf ptr w) (hstamp : b'.stamp = b.stamp)
    (hw : w.data = (b.buf ptr).data) (hvalid : w.valid = valid') (hbusy : w.busy = busy') :
    PacketAt c b' ptr len id ws valid' busy' := by
  refine ⟨?_, ?_, ?_, ?_, ?_⟩
  · rw [hbuf, update_self, hvalid]
  · rw [hbuf, update_self, hbusy]
  · rw [hstamp, h.stamp]
  · rw [hbuf, contents_update hw, h.contents]
  · rw [hbuf, update_self, hw, h.wlen]

theorem ItemOk.congr (h : ItemOk c b ptr i) (hlen : 0 < i.len)
    (hb : ∀ x, ptr ≤ x → x < ptr + i.len → b'.buf x = b.buf x ∧ b'.stamp x = b.stamp x) :
    ItemOk c b' ptr i := by
  have hhead := hb ptr le_rfl (by omega)
  rw [ItemOk] at h ⊢
  split at h
  · rwa [hhead.1, hhead.2]
  · exact h.congr hlen hb
  · exact h.congr hlen hb
  · rwa [hhead.1]
  · refine ⟨by rw [hhead.1]; exact h.1, h.2.1, h.2.2.congr (by omega) fun x h1 h2 => ?_⟩
    exact hb x (by omega) (by omega)

theorem Tiled.changed (h : Tiled Item.len c.size (ItemOk c b) q is) (hb : Changed c b b' lo hi)
    (hout : q + total Item.len is ≤ lo ∧ hi ≤ q + c.size ∨
      hi ≤ q ∧ q + total Item.len is ≤ lo + c.size) :
    Tiled Item.len c.size (ItemOk c b') q is := by
  intro e he
  obtain ⟨hpos, hend, hok⟩ := h e he
  exact ⟨hpos, hend, hok.congr hpos fun x h1 h2 =>
    hb x fun _ hlo hhi => h.cell_ne he hout h1 h2 hlo hhi⟩

end Words

namespace Shape

def used (front rest : List Item) : ℕ := total Item.len front + total Item.len rest

theorem tiled_rest (h : Shape c b R front rest) :
    Tiled Item.len c.size (ItemOk c b) (R + total Item.len front) rest := (Tiled.append.1 h.tiled).2

theorem freeSpace (h : Shape c b R front rest) :
    ∃ wrap f, freeSpace c b = (wrap, f) ∧ f + used front rest ≤ c.size ∧
      b.tmpWrIdx + f ≤ c.size ∧ (wrap = true → 0 < f) ∧
      (wrap = false → 0 < used front rest ∧ f + used front rest = c.size ∧
        b.tmpWrIdx + f = b.rdIdx) := by
  have hle := h.le
  have hpos := h.pos
  obtain ⟨T, hT⟩ : ∃ T, T = used front rest := ⟨_, rfl⟩
  have hrd := h.rd
  have hwr : b.tmpWrIdx = (R + T) % c.size := by rw [h.tmpWr, hT, used]
  have hfull : b.full = decide (T = c.size) := by rw [h.full, hT, used]
  have hlt := Nat.mod_lt (R + T) hpos
  have hRlt := Nat.mod_lt R hpos
  rw [← used] at hle
  rw [MpscPbuf.freeSpace, hfull]
  by_cases hTs : T = c.size
  · rw [if_pos (by simpa using hTs)]
    refine ⟨_, _, rfl, by omega, by omega, by simp, fun _ => ⟨by omega, by omega, ?_⟩⟩
    rw [hwr, hrd, hTs, Nat.add_mod_right, add_zero]
  rw [if_neg (by simpa using hTs)]
  -- the quotients of the two positions are equal or differ by one
  have hdiv : (R + T) % c.size = R % c.size + T ∨ (R + T) % c.size + c.size = R % c.size + T := by
    rw [← Nat.mod_add_mod]
    by_cases hsum : R % c.size + T < c.size
    · exact .inl (Nat.mod_eq_of_lt hsum)
    · rw [Nat.mod_eq_sub_mod (by omega), Nat.mod_eq_of_lt (by omega)]
      omega
  split
  · exact ⟨_, _, rfl, by omega, by omega, by simp, fun _ => ⟨by omega, by omega, by omega⟩⟩
  · exact ⟨_, _, rfl, by omega, by omega, fun _ => by omega, by simp⟩

theorem snoc (h : Shape c b R front rest)
    (hlen : 0 < i.len) (hfit : i.len + used front rest ≤ c.size) (hend : b.tmpWrIdx + i.len ≤ c.size)
    (hb : Changed c b b' (R + used front rest) (R + used front rest + i.len))
    (hi : ItemOk c b' b.tmpWrIdx i) (hrd : b'.rdIdx = b.rdIdx) (htmpRd : b'.tmpRdIdx = b.tmpRdIdx)
    (htmpWr : b'.tmpWrIdx = idxInc c b.tmpWrIdx i.len)
    (hfull : b'.full = (b.full || decide (b'.tmpWrIdx = b.rdIdx)))
    (hwr : b'.wrIdx = if i.counted then idxInc c b.wrIdx i.len else b.wrIdx) :
    Shape c b' R front (rest ++ [i]) := by
  have hpos := h.pos
  rw [used] at hfit hb
  have htmpWr' : b'.tmpWrIdx = (R + (total Item.len front + total Item.len (rest ++ [i]))) % c.size := by
    rw [htmpWr, h.tmpWr, idxInc_mod hpos (by omega)]
    simp [add_assoc]
  refine ⟨hpos, ?_, ?_, hrd.trans h.rd, htmpRd.trans h.tmpRd, htmpWr', ?_, ?_⟩
  · rw [← append_assoc, Tiled.append, total_append]
    refine ⟨Tiled.changed h.tiled hb (.inl ⟨by rw [total_append], by omega⟩), ?_⟩
    rw [Tiled.cons, ← h.tmpWr]
    exact ⟨⟨hlen, hend, hi⟩, .nil⟩
  · simp only [total_append, total_cons, total_nil]
    omega
  · rw [hwr, h.wr, idxInc_mod hpos (by omega)]
    split
    · simp [*, add_assoc]
    · simp [*]
  rw [hfull, h.full, htmpWr', h.rd]
  simp only [total_append, total_cons, total_nil]
  have hne : R ≠ R + (total Item.len front + (total Item.len rest + (i.len + 0))) := by omega
  have hiff := mod_eq_mod_iff (N := c.size) (Nat.le_add_right R _) (by omega) hne
  rw [Bool.eq_iff_iff]
  simp only [Bool.or_eq_true, decide_eq_true_eq]
  omega

theorem pop (h : Shape c b R [] (i :: r)) (hi : i.counted = true)
    (hb : Changed c b b' R (R + i.len)) (hrd : b'.rdIdx = idxInc c b.rdIdx i.len)
    (htmpRd : b'.tmpRdIdx = idxInc c b.rdIdx i.len) (htmpWr : b'.tmpWrIdx = b.tmpWrIdx)
    (hwr : b'.wrIdx = b.wrIdx) (hfull : b'.full = false) : Shape c b' (R + i.len) [] r := by
  have hpos := h.pos
  have hle := h.le
  obtain ⟨⟨hlen, -⟩, htiled⟩ := Tiled.cons.1 h.tiled_rest
  simp only [total_cons] at hle htiled
  have hrd' : idxInc c b.rdIdx i.len = (R + i.len) % c.size := by
    rw [h.rd, idxInc_mod hpos (by omega)]
  refine ⟨hpos, ?_, ?_, hrd.trans hrd', htmpRd.trans hrd', ?_, ?_, ?_⟩
  · exact Tiled.changed htiled hb (.inr ⟨le_rfl, by rw [nil_append]; omega⟩)
  · omega
  · rw [htmpWr, h.tmpWr]
    simp [add_assoc]
  · rw [hwr, h.wr]
    simp [hi, add_assoc]
  · rw [hfull]
    exact (decide_eq_false (by omega)).symm

theorem popFront (h : Shape c b R (i :: front) rest) (hb : Changed c b b' R (R + i.len))
    (hrd : b'.rdIdx = idxInc c b.rdIdx i.len)
    (htmpRd : b'.tmpRdIdx = (R + total Item.len (i :: front)) % c.size)
    (htmpWr : b'.tmpWrIdx = b.tmpWrIdx) (hwr : b'.wrIdx = b.wrIdx) (hfull : b'.full = false) :
    Shape c b' (R + i.len) front rest := by
  have hpos := h.pos
  have hle := h.le
  obtain ⟨⟨hlen, -⟩, htiled⟩ := Tiled.cons.1 h.tiled
  simp only [total_cons] at hle
  refine ⟨hpos, ?_, ?_, ?_, ?_, ?_, ?_, ?_⟩
  · exact Tiled.changed htiled hb (.inr ⟨le_rfl, by rw [total_append]; omega⟩)
  · omega
  · rw [hrd, h.rd, idxInc_mod hpos (by omega)]
  · rw [htmpRd]
    simp [add_assoc]
  · rw [htmpWr, h.tmpWr]
    simp [add_assoc]
  · rw [hwr, h.wr]
    simp [add_assoc]
  · rw [hfull]
    exact (decide_eq_false (by omega)).symm

theorem replace (h : Shape c b R front (xs ++ i :: ys)) (hlen : i'.len = i.len)
    (hb : Changed c b b' (R + used front xs) (R + used front xs + i.len))
    (hi : ItemOk c b' ((R + used front xs) % c.size) i') (hrd : b'.rdIdx = b.rdIdx)
    (htmpRd : b'.tmpRdIdx = b.tmpRdIdx) (htmpWr : b'.tmpWrIdx = b.tmpWrIdx)
    (hwr : b'.wrIdx =
      if i'.counted && !i.counted then idxInc c b.wrIdx i.len else b.wrIdx)
    (hcounted : i.counted = true → i'.counted = true)
    (hfull : b'.full = b.full) : Shape c b' R front (xs ++ i' :: ys) := by
  have hpos := h.pos
  have hle := h.le
  rw [used] at hb hi
  have htotal : total Item.len (xs ++ i' :: ys) = total Item.len (xs ++ i :: ys) := by simp [hlen]
  obtain ⟨hfront, hrest⟩ := Tiled.append.1 h.tiled
  obtain ⟨hxs, hys⟩ := Tiled.append.1 hrest
  obtain ⟨⟨hlen0, hend, -⟩, hys⟩ := Tiled.cons.1 hys
  rw [add_assoc R] at hend
  simp only [total_append, total_cons] at hle
  refine ⟨hpos, ?_, by rw [htotal]; exact h.le, hrd.trans h.rd, htmpRd.trans h.tmpRd, ?_, ?_, ?_⟩
  · refine .append.2 ⟨Tiled.changed hfront hb (.inl ⟨by omega, by omega⟩), ?_⟩
    refine .append.2 ⟨Tiled.changed hxs hb (.inl ⟨by omega, by omega⟩), ?_⟩
    rw [Tiled.cons, add_assoc R, hlen]
    refine ⟨⟨hlen0, hend, hi⟩, ?_⟩
    rw [← add_assoc R]
    exact Tiled.changed hys hb (.inr ⟨by omega, by omega⟩)
  · rw [htmpWr, h.tmpWr, htotal]
  · rw [hwr, h.wr]
    cases hi' : i'.counted with
    | false =>
      cases hic : i.counted with
      | false => simp [hi', hic]
      | true => exact absurd (hcounted hic) (by simp [hi'])
    | true =>
      cases hic : i.counted with
      | true => simp [hi', hic, hlen]
      | false =>
        simp only [Bool.not_false, Bool.and_self, if_true, counted_append, counted_cons, hi', hic, Bool.false_eq_true, if_false]
        rw [idxInc_mod hpos (by omega)]
        congr 1
        omega
  · rw [hfull, h.full, htotal]

theorem rotate (h : Shape c b R front' rest) (hitems : front' ++ rest = i :: r)
    (hfront : total Item.len front' + counted rest = i.len + counted r) (hi : i.counted = true)
    (hfull : used front' rest = c.size) (hb : Changed c b b' R R)
    (hrd : b'.rdIdx = idxInc c b.rdIdx i.len) (htmpRd : b'.tmpRdIdx = b'.rdIdx)
    (htmpWr : b'.tmpWrIdx = b'.rdIdx) (hwr : b'.wrIdx = idxInc c b.wrIdx i.len)
    (hfull' : b'.full = true) :
    Shape c b' (R + i.len) [] (r ++ [i]) := by
  have hpos := h.pos
  have htotal : i.len + total Item.len r = c.size := by
    rw [← hfull, used, ← total_append, hitems, total_cons]
  have hrd' : b'.rdIdx = (R + i.len) % c.size := by rw [hrd, h.rd, idxInc_mod hpos (by omega)]
  have htiled := Tiled.changed h.tiled hb (.inr ⟨le_rfl, by rw [hitems, total_cons]; omega⟩)
  rw [hitems] at htiled
  obtain ⟨hhead, htail⟩ := Tiled.cons.1 htiled
  refine ⟨hpos, ?_, ?_, hrd', ?_, ?_, ?_, ?_⟩
  · rw [nil_append]
    refine .append.2 ⟨htail, .cons.2 ⟨?_, .nil⟩⟩
    rwa [add_assoc, htotal, Nat.add_mod_right]
  · simp only [total_nil, total_append, total_cons]
    omega
  · rw [htmpRd, hrd', total_nil, add_zero]
  · rw [htmpWr, hrd']
    simp only [total_nil, total_append, total_cons]
    rw [show R + i.len + (0 + (total Item.len r + (i.len + 0))) = R + i.len + c.size by omega,
      Nat.add_mod_right]
  · rw [hwr, h.wr, hfront, idxInc_mod hpos (by omega)]
    simp [hi, add_assoc]
  · rw [hfull']
    simp only [total_nil, total_append, total_cons]
    exact (decide_eq_true (by omega)).symm

theorem claim (h : Shape c b R front (i :: r)) (hlen : i'.len = i.len) (hi : i.counted = true)
    (hb : Changed c b b' (R + total Item.len front) (R + total Item.len front + i.len))
    (hi' : ItemOk c b' b.tmpRdIdx i') (hrd : b'.rdIdx = b.rdIdx)
    (htmpRd : b'.tmpRdIdx = idxInc c b.tmpRdIdx i.len) (htmpWr : b'.tmpWrIdx = b.tmpWrIdx)
    (hwr : b'.wrIdx = b.wrIdx) (hfull : b'.full = b.full) : Shape c b' R (front ++ [i']) r := by
  have hpos := h.pos
  have hle := h.le
  obtain ⟨hfront, hrest⟩ := Tiled.append.1 h.tiled
  obtain ⟨⟨hlen0, hend, -⟩, hrest⟩ := Tiled.cons.1 hrest
  simp only [total_cons] at hle
  refine ⟨hpos, ?_, ?_, hrd.trans h.rd, ?_, ?_, ?_, ?_⟩
  · rw [append_assoc]
    refine .append.2 ⟨Tiled.changed hfront hb (.inl ⟨le_rfl, by omega⟩), ?_⟩
    rw [singleton_append, Tiled.cons, ← h.tmpRd, hlen, h.tmpRd]
    refine ⟨⟨hlen0, hend, h.tmpRd ▸ hi'⟩, ?_⟩
    exact Tiled.changed hrest hb (.inr ⟨le_rfl, by omega⟩)
  · simp only [total_append, total_cons, total_nil]
    omega
  · rw [htmpRd, h.tmpRd, idxInc_mod hpos (by omega)]
    simp [hlen, add_assoc]
  · rw [htmpWr, h.tmpWr]
    simp [hlen, add_assoc]
  · rw [hwr, h.wr]
    simp [hlen, hi, add_assoc]
  · rw [hfull, h.full]
    simp [hlen, add_assoc]

theorem unsnoc (h : Shape c b R front (xs ++ [i])) (hi : i.counted = false)
    (hbuf : b'.buf = b.buf) (hstamp : b'.stamp = b.stamp) (hrd : b'.rdIdx = b.rdIdx)
    (htmpRd : b'.tmpRdIdx = b.tmpRdIdx) (htmpWr : b'.tmpWrIdx = (R + used front xs) % c.size)
    (hwr : b'.wrIdx = b.wrIdx) (hfull : b'.full = false) : Shape c b' R front xs := by
  have hle := h.le
  have htiled := h.tiled
  rw [← append_assoc] at htiled
  obtain ⟨hinit, hlast⟩ := Tiled.append.1 htiled
  have hlen := (Tiled.cons.1 hlast).1.1
  simp only [total_append, total_cons] at hle
  refine ⟨h.pos, ?_, by omega, hrd.trans h.rd, htmpRd.trans h.tmpRd, htmpWr, ?_, ?_⟩
  · have hsame : Changed c b b' R R := .of_eq hbuf hstamp
    refine Tiled.changed hinit hsame (.inr ⟨le_rfl, ?_⟩)
    rw [total_append]
    omega
  · rw [hwr, h.wr]
    simp [hi]
  · rw [hfull]
    exact (decide_eq_false (by omega)).symm

end Shape

def Event.committedPackets : Event → List (ℕ × List Word)
  | .committed id ws => [(id, ws)]
  | _ => []

def Event.claimedPackets : Event → List (ℕ × List Word)
  | .claimed id ws => [(id, ws)]
  | _ => []

def Event.takenIds : Event → List ℕ
  | .claimed id _ | .dropped _ id => [id]
  | _ => []

def Event.droppedIds (p : ℕ) : Event → List ℕ
  | .dropped p' id => if p' = p then [id] else []
  | _ => []

def Event.notifiedPackets (p : ℕ) : Event → List (ℕ × List Word)
  | .notified p' id ws => if p' = p then [(id, ws)] else []
  | _ => []

def committedPackets (es : List Event) : List (ℕ × List Word) := es.flatMap Event.committedPackets

def claimedPackets (es : List Event) : List (ℕ × List Word) := es.flatMap Event.claimedPackets

def takenIds (es : List Event) : List ℕ := es.flatMap Event.takenIds

def droppedIds (p : ℕ) (es : List Event) : List ℕ := es.flatMap (Event.droppedIds p)

def notifiedPackets (p : ℕ) (es : List Event) : List (ℕ × List Word) :=
  es.flatMap (Event.notifiedPackets p)

def live (is : List Item) : List ℕ := is.flatMap Item.live

def Item.stored (i : Item) : List (ℕ × List Word) :=
  match i.kind with
  | .packet id ws | .claimed id ws | .dropping _ id ws _ => [(id, ws)]
  | _ => []

/-- The first `k` packets have left the queue, and the others are in it. -/
structure Log (es : List Event) (is : List Item) (k next : ℕ) : Prop where
  taken : takenIds es = List.range k
  live : live is = List.range' k (next - k)
  le : k ≤ next
  nodup : ((committedPackets es).map Prod.fst).Nodup
  lt : ∀ x ∈ committedPackets es, x.1 < next
  pending : ∀ i ∈ is, ∀ id, i.kind = .pending id → ∀ x ∈ committedPackets es, x.1 ≠ id
  stored : ∀ i ∈ is, ∀ x ∈ i.stored, x ∈ committedPackets es
  held : ∀ i ∈ is, ∀ id ws, i.kind = .claimed id ws → (id, ws) ∈ claimedPackets es
  claims : ∀ x ∈ claimedPackets es, x ∈ committedPackets es
  notified : ∀ p, ∀ x ∈ notifiedPackets p es, x ∈ committedPackets es

variable {es : List Event} {is is' front r xs ys : List Item} {k next n id : ℕ} {ws : List Word}
  {i : Item}

@[simp] theorem live_append : live (xs ++ ys) = live xs ++ live ys := flatMap_append

@[simp] theorem live_cons : live (i :: is) = i.live ++ live is := flatMap_cons

@[simp] theorem live_nil : live [] = [] := rfl

theorem live_of_claimed (h : ∀ i ∈ front, i.isClaimed = true) : live front = [] := by
  refine flatMap_eq_nil_iff.2 fun i hi => ?_
  have hi := h i hi
  obtain ⟨len, kind⟩ := i
  cases kind <;> simp [Item.isClaimed, Item.live] at hi ⊢

namespace Log

theorem init : Log [] [] 0 0 where
  taken := rfl
  live := rfl
  le := le_rfl
  nodup := nodup_nil
  lt _ h := absurd h not_mem_nil
  pending _ h := absurd h not_mem_nil
  stored _ h := absurd h not_mem_nil
  held _ h := absurd h not_mem_nil
  claims _ h := absurd h not_mem_nil
  notified _ _ h := absurd h not_mem_nil

section

variable (h : Log es is k next)
include h

theorem mono (hlive : MpscPbuf.live is' = MpscPbuf.live is)
    (hsub : ∀ i ∈ is', i ∈ is ∨ i.kind = .skip) : Log es is' k next := by
  refine { h with live := hlive.trans h.live, pending := ?_, stored := ?_, held := ?_ }
  · intro i hi id hid
    obtain hi | hi := hsub i hi
    · exact h.pending i hi id hid
    · exact absurd (hid.symm.trans hi) nofun
  · intro i hi x hx
    obtain hi | hi := hsub i hi
    · exact h.stored i hi x hx
    · exact absurd hx (by simp [Item.stored, hi])
  · intro i hi id ws hid
    obtain hi | hi := hsub i hi
    · exact h.held i hi id ws hid
    · exact absurd (hid.symm.trans hi) nofun

theorem head_eq (hlive : MpscPbuf.live is = id :: l) : id = k := by
  rw [h.live] at hlive
  cases hm : next - k with
  | zero => simp [hm] at hlive
  | succ m =>
    rw [hm] at hlive
    exact (cons.inj hlive).1.symm

theorem pending_lt (hi : i ∈ is) (hid : i.kind = .pending id) : id < next := by
  have hmem : id ∈ MpscPbuf.live is := mem_flatMap.2 ⟨i, hi, by simp [Item.live, hid]⟩
  rw [h.live, mem_range'_1] at hmem
  omega

theorem live_snoc (hi : i.live = [next]) : MpscPbuf.live (is ++ [i]) = range' k (next + 1 - k) := by
  have hle := h.le
  rw [live_append, h.live, Nat.succ_sub hle, range'_concat]
  simp [hi, Nat.add_sub_cancel' hle]

theorem reserve : Log es (is ++ [⟨n, .pending next⟩]) k (next + 1) := by
  refine { h with
    live := h.live_snoc rfl, le := h.le.trans (Nat.le_succ _), lt := ?_, pending := ?_, stored := ?_,
    held := ?_ }
  · exact fun x hx => (h.lt x hx).trans (Nat.lt_succ_self _)
  · intro i hi id hid x hx
    obtain hi | rfl := mem_append.1 hi |>.imp_right mem_singleton.1
    · exact h.pending i hi id hid x hx
    · obtain rfl : next = id := by simpa using hid
      exact (h.lt x hx).ne
  · intro i hi x hx
    obtain hi | rfl := mem_append.1 hi |>.imp_right mem_singleton.1
    · exact h.stored i hi x hx
    · cases hx
  · intro i hi id ws hid
    obtain hi | rfl := mem_append.1 hi |>.imp_right mem_singleton.1
    · exact h.held i hi id ws hid
    · simp at hid

theorem commit (hi : i.kind = .packet id ws) (hlive : MpscPbuf.live is' = range' k (next' - k))
    (hle : next ≤ next') (hid : id < next') (hnew : ∀ x ∈ committedPackets es, x.1 ≠ id)
    (hsub : ∀ j ∈ is', j = i ∨ j ∈ is ∧ j.kind ≠ .pending id) :
    Log (es ++ [.committed id ws]) is' k next' := by
  have hcommitted : committedPackets (es ++ [.committed id ws]) = committedPackets es ++ [(id, ws)] := by
    simp [committedPackets, Event.committedPackets]
  have hclaimed : claimedPackets (es ++ [.committed id ws]) = claimedPackets es := by
    simp [claimedPackets, Event.claimedPackets]
  have hin : ∀ x ∈ committedPackets es, x ∈ committedPackets (es ++ [.committed id ws]) := by
    rw [hcommitted]
    exact fun x hx => mem_append_left _ hx
  have hcases : ∀ x ∈ committedPackets (es ++ [.committed id ws]),
      x ∈ committedPackets es ∨ x = (id, ws) := by
    rw [hcommitted]
    exact fun x hx => (mem_append.1 hx).imp_right mem_singleton.1
  refine ⟨?_, hlive, h.le.trans hle, ?_, ?_, ?_, ?_, ?_, ?_, ?_⟩
  · rw [← h.taken]
    simp [takenIds, Event.takenIds]
  · rw [hcommitted, map_append, nodup_append]
    refine ⟨h.nodup, pairwise_singleton .., fun a ha b hb => ?_⟩
    obtain ⟨x, hx, rfl⟩ := mem_map.1 ha
    rw [map_singleton, mem_singleton] at hb
    rw [hb]
    exact hnew x hx
  · intro x hx
    obtain hx | rfl := hcases x hx
    · exact (h.lt x hx).trans_le hle
    · exact hid
  · intro j hj id' hid' x hx
    obtain rfl | ⟨hj, hne⟩ := hsub j hj
    · exact absurd (hi.symm.trans hid') nofun
    obtain hx | rfl := hcases x hx
    · exact h.pending j hj id' hid' x hx
    · rintro rfl
      exact hne hid'
  · intro j hj x hx
    obtain rfl | ⟨hj, -⟩ := hsub j hj
    · rw [hcommitted]
      refine mem_append_right _ ?_
      simpa [Item.stored, hi] using hx
    · exact hin x (h.stored j hj x hx)
  · intro j hj id' ws' hid'
    obtain rfl | ⟨hj, -⟩ := hsub j hj
    · exact absurd (hi.symm.trans hid') nofun
    · rw [hclaimed]
      exact h.held j hj id' ws' hid'
  · rw [hclaimed]
    exact fun x hx => hin x (h.claims x hx)
  · intro p x hx
    refine hin x (h.notified p x ?_)
    simpa [notifiedPackets, Event.notifiedPackets] using hx

theorem put : Log (es ++ [.committed next ws]) (is ++ [⟨n, .packet next ws⟩]) k (next + 1) := by
  refine h.commit (i := ⟨n, .packet next ws⟩) rfl (h.live_snoc rfl) (Nat.le_succ _)
    (Nat.lt_succ_self _) (fun x hx => (h.lt x hx).ne) fun j hj => ?_
  obtain hj | rfl := mem_append.1 hj |>.imp_right mem_singleton.1
  · exact .inr ⟨hj, fun hid => (h.pending_lt hj hid).false⟩
  · exact .inl rfl

theorem take (hid : e.takenIds = [id]) (hcommitted : e.committedPackets = [])
    (hnotified : ∀ p, e.notifiedPackets p = []) (hlive : MpscPbuf.live is = id :: MpscPbuf.live is')
    (hin : (id, ws) ∈ committedPackets es)
    (hclaimed : e.claimedPackets = [] ∨ e.claimedPackets = [(id, ws)])
    (hstored : i.stored = [(id, ws)])
    (hheld : ∀ id' ws', i.kind = .claimed id' ws' → e.claimedPackets = [(id', ws')])
    (hpending : ∀ id', i.kind ≠ .pending id') (hsub : ∀ j ∈ is', j = i ∨ j ∈ is) :
    id = k ∧ Log (es ++ [e]) is' (k + 1) next := by
  have hrange : range' k (next - k) = id :: MpscPbuf.live is' := h.live.symm.trans hlive
  obtain ⟨m, hm⟩ : ∃ m, next - k = m + 1 := by
    cases hd : next - k with
    | zero => simp [hd] at hrange
    | succ m => exact ⟨m, rfl⟩
  rw [hm] at hrange
  obtain ⟨rfl, hrest⟩ := cons.inj hrange
  have hcommitted' : committedPackets (es ++ [e]) = committedPackets es := by
    simp [committedPackets, hcommitted]
  have hclaims : claimedPackets (es ++ [e]) = claimedPackets es ++ e.claimedPackets := by
    simp [claimedPackets]
  refine ⟨rfl, ?_, ?_, by omega, ?_, ?_, ?_, ?_, ?_, ?_, ?_⟩
  · rw [range_succ, ← h.taken]
    simp [takenIds, hid]
  · rw [← hrest]
    congr 1
    omega
  · rw [hcommitted']
    exact h.nodup
  · rw [hcommitted']
    exact h.lt
  · rw [hcommitted']
    intro j hj id' hid'
    obtain rfl | hj := hsub j hj
    · exact absurd hid' (hpending id')
    · exact h.pending j hj id' hid'
  · rw [hcommitted']
    intro j hj x hx
    obtain rfl | hj := hsub j hj
    · rw [hstored, mem_singleton] at hx
      rwa [hx]
    · exact h.stored j hj x hx
  · intro j hj id' ws' hid'
    rw [hclaims]
    obtain rfl | hj := hsub j hj
    · exact mem_append_right _ (by rw [hheld id' ws' hid']; exact mem_singleton_self _)
    · exact mem_append_left _ (h.held j hj id' ws' hid')
  · rw [hclaims, hcommitted']
    intro x hx
    obtain hx | hx := mem_append.1 hx
    · exact h.claims x hx
    · obtain he | he := hclaimed
      · exact absurd hx (by simp [he])
      · rw [he, mem_singleton] at hx
        rwa [hx]
  · rw [hcommitted']
    intro p x hx
    refine h.notified p x ?_
    simpa [notifiedPackets, hnotified] using hx

theorem notify (hin : (id, ws) ∈ committedPackets es) :
    Log (es ++ [.notified p id ws]) is k next := by
  have hcommitted : committedPackets (es ++ [.notified p id ws]) = committedPackets es := by
    simp [committedPackets, Event.committedPackets]
  have hclaimed : claimedPackets (es ++ [.notified p id ws]) = claimedPackets es := by
    simp [claimedPackets, Event.claimedPackets]
  refine ⟨?_, h.live, h.le, ?_, ?_, ?_, ?_, ?_, ?_, ?_⟩
  · rw [← h.taken]
    simp [takenIds, Event.takenIds]
  · rw [hcommitted]
    exact h.nodup
  · rw [hcommitted]
    exact h.lt
  · rw [hcommitted]
    exact h.pending
  · rw [hcommitted]
    exact h.stored
  · rw [hclaimed]
    exact h.held
  · rw [hclaimed, hcommitted]
    exact h.claims
  rw [hcommitted]
  intro p' x hx
  have hx : x ∈ notifiedPackets p' es ∨ x ∈ Event.notifiedPackets p' (.notified p id ws) := by
    simpa [notifiedPackets] using hx
  obtain hx | hx := hx
  · exact h.notified p' x hx
  · rw [Event.notifiedPackets] at hx
    split at hx
    · rw [mem_singleton] at hx
      rwa [hx]
    · cases hx

end

end Log

end ZephyrRtos.MpscPbuf
