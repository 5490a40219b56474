import ZephyrRtos.Lib.LogStore
import ZephyrRtos.Nvs.Walk

namespace ZephyrRtos.Nvs

open List Lib Sys

variable {c : Config} {f : Flash} {fs : Fs} {w p o d a b i n k id : ℕ} {es : List Entry}
  {hist : List (List Entry)} {T : List (ℕ × Entry)}

def value (id : ℕ) (es : List Entry) : List UInt8 := LogStore.lookup Entry.id Entry.data id es

theorem Trail.walk (q : ℕ → Ate → Bool) (h : Trail c fs a T) (hne : T ≠ []) (hn : T.length ≤ n + 1) :
    ∃ pre x post b, T = pre ++ x :: post ∧ (∀ y ∈ pre, q y.1 (y.2.ate c) = false) ∧
      (q x.1 (x.2.ate c) = true ∨ post = []) ∧ walk c fs q n a = .ok (x.1, x.2.ate c, b) := by
  induction h generalizing n with
  | nil => exact absurd rfl hne
  | @cons a b e T hprev _ _ htail ih =>
    cases n with
    | zero =>
      obtain rfl : T = [] := length_eq_zero_iff.1 (by simpa using hn)
      refine ⟨[], (a, e), [], b, rfl, by simp, .inr rfl, ?_⟩
      rw [Nvs.walk, hprev]
      rfl
    | succ n =>
      rw [Nvs.walk, hprev, ok_bind]
      dsimp only
      by_cases hq : q a (e.ate c) = true
      · exact ⟨[], (a, e), T, b, rfl, by simp, .inl hq, if_pos (.inl hq)⟩
      · cases htail with
        | nil => exact ⟨[], (a, e), [], _, rfl, by simp, .inr rfl, if_pos (.inr rfl)⟩
        | @cons _ b' e' T hprev' hvalid' hne' htail' =>
          obtain ⟨pre, x, post, b'', hT, hpre, hx, heq⟩ :=
            ih nofun (by simpa using Nat.le_of_succ_le_succ hn)
          refine ⟨(a, e) :: pre, x, post, b'', by rw [hT, cons_append], ?_, hx, ?_⟩
          · intro y hy
            obtain rfl | hy := mem_cons.1 hy
            · exact Bool.eq_false_iff.2 hq
            · exact hpre y hy
          · rw [if_neg (by rintro (h | h); exacts [hq h, hne' h]), heq]

def count (id : ℕ) (T : List (ℕ × Entry)) : ℕ := T.countP fun x => x.2.id = id

theorem matching_ate {e : Entry} (h : ateValid a (e.ate c) = true) :
    matching id a (e.ate c) = decide (e.id = id) := by
  rw [matching, h, Bool.and_true]
  rfl

theorem Trail.valid (h : Trail c fs a T) : ∀ x ∈ T, ateValid x.1 (x.2.ate c) = true := by
  induction h with
  | nil => exact nofun
  | cons _ hvalid _ _ ih =>
    intro x hx
    obtain rfl | hx := mem_cons.1 hx
    · exact hvalid
    · exact ih x hx

theorem Trail.histLoop (id : ℕ) (h : Trail c fs a T) (hne : T ≠ []) (hn : T.length ≤ n)
    (hk : k ≤ cnt) :
    ∃ pre x post b, T = pre ++ x :: post ∧
      histLoop c fs id cnt n a k = .ok (x.1, x.2.ate c, b, k + count id (pre ++ [x])) ∧
      (post = [] → b = fs.ateWra) ∧ (post = [] ∨ cnt < k + count id (pre ++ [x])) ∧
      k + count id pre ≤ cnt := by
  induction h generalizing n k with
  | nil => exact absurd rfl hne
  | @cons a b e T hprev hvalid _ htail ih =>
    obtain ⟨n, rfl⟩ : ∃ m, n = m + 1 := Nat.exists_eq_add_of_le' (le_trans (by simp) hn)
    have hcount : ∀ l, count id ((a, e) :: l) = (if e.id = id then 1 else 0) + count id l := by
      simp [count, countP_cons, add_comm]
    have hk' : (if matching id a (e.ate c) = true then k + 1 else k) =
        k + if e.id = id then 1 else 0 := by
      rw [matching_ate hvalid]
      simp only [decide_eq_true_iff]
      split <;> rfl
    have hone : count id ([] ++ [(a, e)]) = if e.id = id then 1 else 0 := hcount []
    rw [Nvs.histLoop, hprev, ok_bind]
    dsimp only
    rw [hk']
    cases htail with
    | nil =>
      refine ⟨[], (a, e), [], _, rfl, ?_, fun _ => rfl, .inl rfl, hk⟩
      rw [if_pos (.inl rfl), hone]
      rfl
    | @cons _ b' e' T hprev' hvalid' hne' htail' =>
      by_cases hlt : cnt < k + if e.id = id then 1 else 0
      · refine ⟨[], (a, e), _, b, rfl, ?_, by simp, .inr (by rwa [hone]), hk⟩
        rw [if_pos (.inr hlt), hone]
        rfl
      obtain ⟨pre, x, post, b'', hT, heq, hb, hpost, hpre⟩ :=
        ih (n := n) nofun
          (Nat.le_of_succ_le_succ hn) (not_lt.1 hlt)
      refine ⟨(a, e) :: pre, x, post, b'', by rw [hT, cons_append], ?_, hb, ?_, ?_⟩
      · rw [if_neg (by rintro (h | h); exacts [hne' h, hlt h]), heq, cons_append, hcount, add_assoc]
      · rwa [cons_append, hcount, ← add_assoc]
      · rwa [hcount, ← add_assoc]

def Holds (c : Config) (f : Flash) (x : ℕ × Entry) : Prop :=
  ∃ w < c.sectorCount, ∃ o ≤ top c, x.1 = addrOf w o ∧ x.2.Fits c o ∧
    f.bytes (base c w + x.2.offset) (x.2.len c) = payload c x.2.data

theorem Holds.data (hc : c.Good) (h : Holds c f x) :
    ∃ w < c.sectorCount, addrSect x.1 + x.2.offset = addrOf w x.2.offset ∧ x.2.offset < 2 ^ 16 ∧
      x.2.fin c + 2 * ateSize c ≤ c.sectorSize ∧
      f.bytes (base c w + x.2.offset) (x.2.len c) = payload c x.2.data := by
  obtain ⟨w, hw, o, ho, haddr, hfits, hbytes⟩ := h
  obtain ⟨-, hpos, -, hsize, hend⟩ := hc.sizes
  have hle := hfits.le
  obtain ⟨hoff, -⟩ := hfits.lt hc ho
  refine ⟨w, hw, ?_, hoff, by omega, hbytes⟩
  rw [haddr, addrSect_addrOf (by omega), addrOf_add, zero_add]

theorem bytes_of_payload (h : f.bytes a n = payload c data) (hn : k ≤ data.length) :
    f.bytes a k = data.take k := by
  have hlen : k + (n - k) = n := by
    have hle : data.length ≤ n := by
      rw [← Flash.length_bytes f a n, h]
      obtain rfl | hne := eq_or_ne data []
      · exact Nat.zero_le _
      · rw [length_payload hne]
        exact Nat.le_add_right ..
    omega
  have hsplit := f.bytes_add a k (n - k)
  rw [hlen, h] at hsplit
  have htake : (payload c data).take k = f.bytes a k := by
    rw [hsplit, take_left' (Flash.length_bytes ..)]
  rw [← htake, ← take_payload data, take_take, min_eq_left hn, take_payload]

theorem Slots.holds (hw : w < c.sectorCount) (h : Slots c f w es p o) (hdata : Stored c f w es) :
    ∀ x ∈ slotsOf c w es, Holds c f x := by
  induction h with
  | nil => exact nofun
  | @cons e es p o hes hp hfits hat ih =>
    intro x hx
    obtain rfl | hx := mem_cons.1 hx
    · have hoff := hes.offset
      refine ⟨w, hw, _, Nat.sub_le .., rfl, ?_, hdata e mem_cons_self⟩
      rwa [← Nat.eq_sub_of_add_eq hoff]
    · exact ih (fun e he => hdata e (mem_cons_of_mem _ he)) x hx

theorem ringSlots_holds (hw : w < c.sectorCount) (hi : i + hist.length ≤ c.sectorCount)
    (hclosed : ∀ j (h : j < hist.length), ∃ p o, Closed c f (back c w (i + j)) hist[j] p o) :
    ∀ x ∈ ringSlots c w i hist, Holds c f x := by
  induction hist generalizing i with
  | nil => exact nofun
  | cons es hist ih =>
    intro x hx
    rw [length_cons] at hi
    obtain hx | hx := mem_append.1 hx
    · obtain ⟨p, o, hes⟩ := hclosed 0 (by simp)
      exact hes.slots.holds (back_lt hw) hes.stored x hx
    · refine ih (i := i + 1) (by omega) (fun j hj => ?_) x hx
      have := hclosed (j + 1) (by simpa using hj)
      rwa [getElem_cons_succ, show i + (j + 1) = i + 1 + j by omega] at this

theorem alignDown_block (hc : c.Good) : alignDown c.writeBlockSize nvsBlockSize = 32 := by
  obtain ⟨n, hn, hblock⟩ := hc.block
  have hdvd : c.writeBlockSize ∣ 32 := by
    rw [hblock]
    exact pow_dvd_pow 2 hn
  rw [alignDown_eq hc.block, show nvsBlockSize = 32 from rfl, Nat.mod_eq_zero_of_dvd hdvd]

theorem flashCmp_eq (hc : c.Good) (f : Flash) (hw : w < c.sectorCount) (hn : data.length ≤ n)
    (hx : x + data.length ≤ c.sectorSize) :
    flashCmp c f n (addrOf w x) data =
      .ok (decide (f.bytes (base c w + x) data.length = data)) := by
  have hsize := hc.size_le
  have hcount := hc.count_lt
  induction n generalizing x data with
  | zero =>
    obtain rfl := length_eq_zero_iff.1 (Nat.le_zero.1 hn)
    rfl
  | succ n ih =>
    rw [flashCmp]
    split
    next hnil =>
      subst hnil
      rfl
    next hne =>
      have hpos := length_pos_iff.2 hne
      dsimp only
      rw [alignDown_block hc]
      obtain ⟨m, hm⟩ : ∃ m, m = min 32 data.length := ⟨_, rfl⟩
      rw [← hm, rd_addrOf hc f hw (by omega) (by omega), ok_bind]
      have hbytes : f.bytes (base c w + x) data.length = data ↔
          f.bytes (base c w + x) m = data.take m ∧
            f.bytes (base c w + (x + m)) (data.drop m).length = data.drop m := by
        have hsplit := f.bytes_add (base c w + x) m (data.length - m)
        rw [Nat.add_sub_cancel' (by omega)] at hsplit
        rw [hsplit, length_drop, add_assoc]
        conv_lhs => rhs; rw [← take_append_drop m data]
        exact ⟨fun h => append_inj h (by rw [Flash.length_bytes, length_take]; omega),
          fun h => by rw [h.1, h.2]⟩
      simp only [hbytes]
      split
      next heq =>
        simp only [heq, true_and]
        obtain hlast | hlt := eq_or_lt_of_le (show x + m ≤ 2 ^ 16 by omega)
        · -- the end of the sector, where there is nothing left to compare
          have hdrop : data.drop m = [] := drop_eq_nil_iff.2 (by omega)
          simp only [hdrop]
          cases n <;> rfl
        · rw [add32_addrOf (by omega) hlt]
          exact ih (by rw [length_drop]; omega) (by rw [length_drop]; omega)
      next hneq =>
        simp only [hneq, decide_false]
        rfl

/-- What is at the write address is taken for an entry. -/
def stray (c : Config) (fs : Fs) : Bool :=
  match flashAteRd c fs.flash fs.ateWra with
  | .ok ate => ateValid fs.ateWra ate
  | .error _ => false

structure Listed (c : Config) (fs : Fs) (T : List (ℕ × Entry)) : Prop where
  start : ∃ ate b, prevAte c fs fs.ateWra = .ok (ate, b) ∧ ateValid fs.ateWra ate = false ∧
    Trail c fs b T
  ne_nil : T ≠ []
  length_lt : T.length < walkBound c

theorem value_of_split {pre post : List (ℕ × Entry)} {x : ℕ × Entry}
    (hpre : ∀ y ∈ pre, y.2.id ≠ id) (hx : x.2.id = id) :
    value id ((pre ++ x :: post).map Prod.snd) = x.2.data := by
  rw [map_append, map_cons, value, LogStore.lookup_append_of_forall,
    LogStore.lookup_cons, if_pos hx]
  intro e he
  obtain ⟨y, hy, rfl⟩ := mem_map.1 he
  exact hpre y hy

theorem value_of_forall (id : ℕ) (h : ∀ y ∈ T, y.2.id ≠ id) : value id (T.map Prod.snd) = [] := by
  refine LogStore.lookup_eq_nil fun e he => ?_
  obtain ⟨y, hy, rfl⟩ := mem_map.1 he
  exact h y hy

theorem Listed.walk_id (h : Listed c fs T) (id : ℕ) :
    ∃ pre x post b, T = pre ++ x :: post ∧ (∀ y ∈ pre, y.2.id ≠ id) ∧ (x.2.id = id ∨ post = []) ∧
      walk c fs (matching id) (walkBound c) fs.ateWra = .ok (x.1, x.2.ate c, b) ∧
      matching id x.1 (x.2.ate c) = decide (x.2.id = id) := by
  obtain ⟨ate, b, hprev, hjunk, htrail⟩ := h.start
  have hlt := h.length_lt
  obtain ⟨n, hn⟩ : ∃ n, walkBound c = n + 1 := Nat.exists_eq_add_of_le' (by omega)
  have hvalid := htrail.valid
  obtain ⟨pre, x, post, b', hT, hpre, hx, heq⟩ :=
    htrail.walk (n := n) (matching id) h.ne_nil (by omega)
  have hmatch : ∀ y ∈ T, matching id y.1 (y.2.ate c) = decide (y.2.id = id) :=
    fun y hy => matching_ate (hvalid y hy)
  have hne : b ≠ fs.ateWra := by
    cases htrail with
    | nil => exact absurd rfl h.ne_nil
    | cons _ _ hne _ => exact hne
  refine ⟨pre, x, post, b', hT, fun y hy => ?_, ?_, ?_, hmatch x (by simp [hT])⟩
  · have := hpre y hy
    rw [hmatch y (by simp [hT, hy])] at this
    exact of_decide_eq_false this
  · rwa [hmatch x (by simp [hT]), decide_eq_true_iff] at hx
  rw [hn, Nvs.walk, hprev, ok_bind]
  dsimp only
  rw [if_neg, heq]
  rintro (hm | heq)
  · rw [matching, hjunk, Bool.and_false] at hm
    exact absurd hm (by decide)
  · exact hne heq

theorem Listed.unchanged (hc : c.Good) (h : Listed c fs T)
    (hholds : ∀ x ∈ T, Holds c fs.flash x) (id : ℕ) (data : List UInt8) :
    unchanged c fs id data = .ok (decide (value id (T.map Prod.snd) = data)) := by
  obtain ⟨pre, x, post, b, hT, hpre, hx, hwalk, hmatch⟩ := h.walk_id id
  rw [Nvs.unchanged, hwalk, ok_bind]
  dsimp only
  rw [hmatch]
  split
  next hid =>
    rw [decide_eq_true_iff] at hid
    rw [hT, value_of_split hpre hid]
    have hlen : (x.2.ate c).len = x.2.len c := rfl
    rw [hlen]
    split
    next hnil =>
      subst hnil
      simp only [Entry.len_eq_zero]
      rfl
    next hne =>
      obtain ⟨w, hw, haddr, -, hle, hbytes⟩ := (hholds x (by simp [hT])).data hc
      split
      next heq =>
        have hdata : x.2.data ≠ [] := by
          rintro hnil
          rw [Entry.len_eq_zero.2 hnil] at heq
          exact hne (length_eq_zero_iff.1 (by omega))
        have heq' : data.length = x.2.data.length := by
          unfold Entry.len at heq
          rw [length_payload hdata] at heq
          omega
        unfold Entry.fin at hle
        rw [show (x.2.ate c).offset = x.2.offset from rfl, haddr, flashBlockCmp,
          flashCmp_eq hc fs.flash hw le_rfl (by omega),
          bytes_of_payload hbytes heq'.le, heq', take_length]
      next hneq =>
        rw [decide_eq_false]
        · rfl
        · rintro rfl
          exact hneq (length_payload hne).symm
  next hid =>
    rw [decide_eq_true_iff] at hid
    obtain hx | rfl := hx
    · exact absurd hx hid
    have hnil := value_of_forall (T := T) id (by
      intro y hy
      rw [hT] at hy
      obtain hy | hy := mem_append.1 hy
      · exact hpre y hy
      · rwa [mem_singleton.1 hy])
    simp only [hnil, eq_comm]
    rfl

def Entry.result (len : ℕ) (e : Entry) : Except Errno (ℕ × List UInt8) :=
  if e.data = [] then .error .noent else .ok (e.data.length, e.data.take len)

def ofId (id : ℕ) (es : List Entry) : List Entry := es.filter fun e => e.id = id

/-- What a read of the history returns. When one more entry is asked for than there are, and the
oldest entry of all has the id, it is returned once more. -/
def histResult (id len k : ℕ) (es : List Entry) : Except Errno (ℕ × List UInt8) :=
  match (ofId id es)[k]?, es.getLast? with
  | some e, _ => e.result len
  | none, some e => if e.id = id ∧ (ofId id es).length = k then e.result len else .error .noent
  | none, none => .error .noent

theorem readHist_of_histLoop (hc : c.Good) (hready : fs.ready = true)
    (hlen : len ≤ c.sectorSize - 2 * ateSize c) (hx : Holds c fs.flash x)
    (hloop : histLoop c fs id k (walkBound c) fs.ateWra 0 = .ok (x.1, x.2.ate c, b, m)) :
    readHist c fs id len k =
      if b = fs.ateWra ∧ x.2.id ≠ id ∨ m < k then .error .noent else x.2.result len := by
  obtain ⟨hate, hpos, hfour, hsize, hend⟩ := hc.sizes
  have hsub : sub32 c.sectorSize (2 * ateSize c) = c.sectorSize - 2 * ateSize c := by
    unfold sub32
    omega
  obtain ⟨w, hw, haddr, hoff, hle, hbytes⟩ := hx.data hc
  rw [readHist, hready, if_neg (by decide), hsub, if_neg (by omega), hloop, ok_bind]
  dsimp only
  rw [show (x.2.ate c).offset = x.2.offset from rfl, show (x.2.ate c).len = x.2.len c from rfl,
    show (x.2.ate c).id = x.2.id from rfl, haddr]
  by_cases hcond : b = fs.ateWra ∧ x.2.id ≠ id ∨ m < k
  · rw [if_pos hcond, if_pos]
    obtain h | h := hcond
    · exact .inl h
    · exact .inr (.inr h)
  rw [if_neg hcond, Entry.result]
  by_cases hdata : x.2.data = []
  · rw [if_pos hdata, if_pos (.inr (.inl (Entry.len_eq_zero.2 hdata)))]
  have hplen : x.2.len c = x.2.data.length + dataCrcSize c := length_payload hdata
  have hdpos := length_pos_iff.2 hdata
  have hsub' : x.2.len c - dataCrcSize c = x.2.data.length := by omega
  unfold Entry.fin at hle
  have hread : flashRd c fs.flash (addrOf w x.2.offset) (min len x.2.data.length) =
      .ok (x.2.data.take len) := by
    rw [rd_addrOf hc fs.flash hw (by omega) hoff,
      bytes_of_payload hbytes (min_le_right ..), ← take_take, take_length]
  rw [if_neg hdata, if_neg, if_neg (by omega), hsub', hread, ok_bind]
  · cases hcrc : c.dataCrc with
    | none => rfl
    | some crc32 =>
      dsimp only
      split
      next hfull =>
        have hsum : dataCrcSize c = 4 := by rw [dataCrcSize, hcrc]; rfl
        have hcrcbytes : fs.flash.bytes (base c w + (x.2.offset + x.2.data.length)) 4 =
            leBytes 4 (crc32 x.2.data).toNat := by
          have hsplit := fs.flash.bytes_add (base c w + x.2.offset) x.2.data.length 4
          rw [← hsum, ← hplen, hbytes, bytes_of_payload hbytes le_rfl, hsum,
            take_length, payload, hcrc] at hsplit
          dsimp only at hsplit
          rw [if_neg hdata, add_assoc] at hsplit
          exact (append_cancel_left hsplit).symm
        rw [add32_addrOf (hw.trans hc.count_lt) (by omega),
          rd_addrOf hc fs.flash hw (by omega) (by omega), ok_bind, hcrcbytes,
          take_of_length_le hfull, if_neg fun h => h rfl]
        rfl
      next => rfl
  · rintro (h | h | h)
    · exact hcond (.inl h)
    · omega
    · exact hcond (.inr h)

theorem count_eq (id : ℕ) (T : List (ℕ × Entry)) : count id T = (ofId id (T.map Prod.snd)).length := by
  rw [count, ofId, filter_map, length_map, countP_eq_length_filter]
  rfl

theorem Listed.readHist (hc : c.Good) (h : Listed c fs T) (hholds : ∀ x ∈ T, Holds c fs.flash x)
    (hready : fs.ready = true) (hlen : len ≤ c.sectorSize - 2 * ateSize c) (id k : ℕ) :
    readHist c fs id len k = histResult id len k (T.map Prod.snd) := by
  obtain ⟨ate, a, hprev, hjunk, htrail⟩ := h.start
  have hlt := h.length_lt
  obtain ⟨n, hn⟩ : ∃ n, walkBound c = n + 1 := Nat.exists_eq_add_of_le' (by omega)
  have hne : a ≠ fs.ateWra := by
    cases htrail with
    | nil => exact absurd rfl h.ne_nil
    | cons _ _ hne _ => exact hne
  obtain ⟨pre, x, post, b, hT, hloop, hend, hpost, hpre⟩ :=
    htrail.histLoop (n := n) id h.ne_nil (by omega) (Nat.zero_le k)
  rw [zero_add] at hloop hpost hpre
  have hstart : Nvs.histLoop c fs id k (walkBound c) fs.ateWra 0 =
      .ok (x.1, x.2.ate c, b, count id (pre ++ [x])) := by
    have hmatch : matching id fs.ateWra ate = false := by rw [matching, hjunk, Bool.and_false]
    rw [hn, Nvs.histLoop, hprev, ok_bind]
    simp only [hmatch, Bool.false_eq_true, if_false]
    rw [if_neg, hloop]
    rintro (h | h)
    · exact hne h
    · exact absurd h (Nat.not_lt_zero _)
  rw [readHist_of_histLoop hc hready hlen (hholds x (by simp [hT])) hstart, histResult]
  have hof : ofId id (T.map Prod.snd) = ofId id (pre.map Prod.snd) ++
      ofId id (x.2 :: post.map Prod.snd) := by
    rw [hT, map_append, ofId, filter_append]
    rfl
  have hsnoc : count id (pre ++ [x]) = count id pre + if x.2.id = id then 1 else 0 := by
    simp [count]
  rw [count_eq id pre] at hpre hsnoc
  rw [hsnoc] at hpost ⊢
  by_cases hmore : k < (ofId id (pre.map Prod.snd)).length + if x.2.id = id then 1 else 0
  · -- the entry that was asked for
    have hid : x.2.id = id := by
      by_contra hid
      rw [if_neg hid] at hmore
      omega
    rw [if_pos hid] at hmore ⊢
    have hkth : (ofId id (T.map Prod.snd))[k]? = some x.2 := by
      rw [hof, getElem?_append_right hpre, show k - _ = 0 by omega, ofId,
        filter_cons_of_pos (by simpa using hid)]
      rfl
    rw [hkth, if_neg]
    rintro (⟨-, hne⟩ | hlt)
    · exact hne hid
    · omega
  · -- the end of the trail
    obtain rfl | hmore' := hpost
    swap
    · exact absurd hmore' hmore
    have hlast : (T.map Prod.snd).getLast? = some x.2 := by
      rw [hT, map_append, getLast?_append]
      rfl
    have hlength : (ofId id (T.map Prod.snd)).length =
        (ofId id (pre.map Prod.snd)).length + if x.2.id = id then 1 else 0 := by
      have hone : (ofId id [x.2]).length = if x.2.id = id then 1 else 0 := by
        rw [ofId, filter_cons]
        simp only [decide_eq_true_iff]
        split <;> rfl
      rw [hof, length_append, map_nil, hone]
    rw [getElem?_eq_none (by omega), hlast, hend rfl, hlength]
    dsimp only
    by_cases hid : x.2.id = id
    · rw [if_pos hid] at hmore ⊢
      split <;> split <;> first | rfl | omega
    · rw [if_pos (.inl ⟨rfl, hid⟩), if_neg fun h => hid h.1]

end ZephyrRtos.Nvs
