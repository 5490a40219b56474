import Mathlib.Data.Nat.ModEq
import ZephyrRtos.Fcb.Layout

namespace ZephyrRtos.Fcb

open List Function Lib Sys

/-- What `fcb_init` does not check of its configuration. -/
structure Config.Valid (c : Config) : Prop where
  magic : c.magic ≠ 0xffffffff
  align : ∃ n, c.align = 2 ^ n
  size : ∀ sector < c.sectorCnt, writeAlignmentBufferSize ≤ c.sectorSize sector
  cnt : c.sectorCnt < 2 ^ 16

variable {c : Config} {f f' : Flash} {s : State} {sector off fin len id k first p : ℕ} {i j : Item}
  {items live : List Item}

theorem mk32_toNat (v : UInt8) : (mk32 v).toNat = ofLeBytes [v, v, v, v] := by
  have hlt : v.toNat < 2 ^ 8 := v.toNat_lt
  have h1 : (v.toUInt32 <<< 24).toNat = v.toNat <<< 24 := by
    rw [UInt32.toNat_shiftLeft, UInt8.toNat_toUInt32, show (24 : UInt32).toNat % 32 = 24 from rfl, Nat.mod_eq_of_lt (by omega)]
  have h2 : (v.toUInt32 <<< 16).toNat = v.toNat <<< 16 := by
    rw [UInt32.toNat_shiftLeft, UInt8.toNat_toUInt32, show (16 : UInt32).toNat % 32 = 16 from rfl, Nat.mod_eq_of_lt (by omega)]
  have h3 : (v.toUInt32 <<< 8).toNat = v.toNat <<< 8 := by
    rw [UInt32.toNat_shiftLeft, UInt8.toNat_toUInt32, show (8 : UInt32).toNat % 32 = 8 from rfl, Nat.mod_eq_of_lt (by omega)]
  rw [mk32, UInt32.toNat_or, UInt32.toNat_or, UInt32.toNat_or, h1, h2, h3, UInt8.toNat_toUInt32,
    Nat.or_assoc, Nat.or_assoc, ← Nat.shiftLeft_add_eq_or_of_lt hlt,
    ← Nat.shiftLeft_add_eq_or_of_lt (show _ < 2 ^ 16 by rw [Nat.shiftLeft_eq]; omega),
    ← Nat.shiftLeft_add_eq_or_of_lt
      (show _ < 2 ^ 24 by rw [Nat.shiftLeft_eq]; omega)]
  simp only [ofLeBytes]
  omega

theorem flashMagic_ne (h : c.magic ≠ 0xffffffff) : flashMagic c ≠ mk32 c.eraseValue := by
  intro heq
  apply h
  have hcancel : c.magic = flashMagic c ^^^ ~~~mk32 c.eraseValue := by
    rw [flashMagic, UInt32.xor_assoc, UInt32.xor_self, UInt32.xor_zero]
  rw [hcancel, heq, ← UInt32.xor_neg_one, ← UInt32.xor_assoc, UInt32.xor_self]
  rfl

theorem hdrRead_congr (h : Cells.SameOn (f sector) (f' sector) 0 sizeofDiskArea) :
    sectorHdrRead c f' sector = sectorHdrRead c f sector := by
  have hslice : (f' sector).slice 0 sizeofDiskArea = (f sector).slice 0 sizeofDiskArea :=
    Cells.slice_congr h
  simp [sectorHdrRead, flashRead, hslice]

theorem hdrRead_erased (h : Erased c f sector 0) (hsize : sizeofDiskArea ≤ c.sectorSize sector) :
    sectorHdrRead c f sector = .ok none := by
  have hslice : (f sector).slice 0 sizeofDiskArea = replicate sizeofDiskArea c.eraseValue := by
    refine ext_getElem (by simp) fun n h1 h2 => ?_
    rw [Cells.getElem_slice, getElem_replicate, h _ (Nat.zero_le _)]
    rw [Cells.length_slice] at h1
    omega
  have hread : flashRead c f sector 0 sizeofDiskArea =
      .ok (replicate sizeofDiskArea c.eraseValue) := by
    rw [flashRead, if_neg (by omega), hslice]
  simp only [sectorHdrRead, hread]
  exact if_pos (mk32_toNat c.eraseValue).symm

theorem flashWrite_ok (h : off + bs.length ≤ c.sectorSize sector) :
    flashWrite c f sector off bs = .ok (update f sector ((f sector).put off bs)) :=
  if_neg h.not_gt

theorem length_hdrBytes (id : ℕ) : (hdrBytes c id).length = writeAlignmentBufferSize := by
  simp [hdrBytes, writeAlignmentBufferSize]

def withHeader (c : Config) (f : Flash) (sector id : ℕ) : Flash :=
  Function.update f sector ((f sector).put 0 (hdrBytes c (id % 2 ^ 16)))

section

variable (hsize : writeAlignmentBufferSize ≤ c.sectorSize sector)
include hsize

theorem hdrInit_eq : sectorHdrInit c f sector id = .ok (withHeader c f sector id) := by
  unfold sectorHdrInit
  rw [flashWrite_ok (by rw [length_hdrBytes]; omega)]
  rfl

theorem openSector_eq :
    openSector c s sector = .ok { s with
      flash := withHeader c s.flash sector (s.activeId + 1)
      activeSector := sector
      active := { s.active with elemOff := firstOff c }
      activeId := (s.activeId + 1) % 2 ^ 16 } := by
  unfold openSector
  rw [hdrInit_eq hsize]
  rfl

end

theorem hdrRead_withHeader (hmagic : c.magic ≠ 0xffffffff)
    (hsize : sizeofDiskArea ≤ c.sectorSize sector) :
    sectorHdrRead c (withHeader c f sector id) sector = .ok (some (id % 2 ^ 16)) := by
  have hcells : withHeader c f sector id sector = (f sector).put 0 (hdrBytes c (id % 2 ^ 16)) :=
    update_self ..
  have hslice : (withHeader c f sector id sector).slice 0 sizeofDiskArea =
      leBytes 4 (flashMagic c).toNat ++ [c.version, c.eraseValue] ++ leBytes 2 (id % 2 ^ 16) := by
    have hself := Cells.slice_put_self (f sector) 0 (hdrBytes c (id % 2 ^ 16))
    rw [length_hdrBytes] at hself
    rw [hcells]
    exact (append_inj hself (by simp [sizeofDiskArea])).1
  have hread : flashRead c (withHeader c f sector id) sector 0 sizeofDiskArea =
      .ok (leBytes 4 (flashMagic c).toNat ++ [c.version, c.eraseValue] ++
        leBytes 2 (id % 2 ^ 16)) := by
    rw [flashRead, if_neg (by omega), hslice]
  have hm : ofLeBytes ((leBytes 4 (flashMagic c).toNat ++ [c.version, c.eraseValue] ++
      leBytes 2 (id % 2 ^ 16)).take 4) = (flashMagic c).toNat := by
    have hlt : (flashMagic c).toNat < 256 ^ 4 := (flashMagic c).toNat_lt
    rw [append_assoc, take_left' (length_leBytes ..), ofLeBytes_leBytes, Nat.mod_eq_of_lt hlt]
  have hid : ofLeBytes ((leBytes 4 (flashMagic c).toNat ++ [c.version, c.eraseValue] ++
      leBytes 2 (id % 2 ^ 16)).drop 6) = id % 2 ^ 16 := by
    rw [drop_left' (by simp), ofLeBytes_leBytes]
    omega
  simp only [sectorHdrRead, hread, hm]
  rw [if_neg (fun h => flashMagic_ne hmagic (UInt32.toNat_inj.1 h)), if_neg fun h => h rfl, hid]

theorem firstOff_ge : sizeofDiskArea ≤ firstOff c := le_lenInFlash ..

theorem erased_withHeader (h : Erased c f sector 0) :
    Erased c (withHeader c f sector id) sector (firstOff c) := by
  intro a h1 h2
  have hge := firstOff_ge (c := c)
  have hcells : withHeader c f sector id sector = (f sector).put 0 (hdrBytes c (id % 2 ^ 16)) :=
    update_self ..
  have hlen := length_hdrBytes (c := c) (id % 2 ^ 16)
  unfold sizeofDiskArea at hge
  unfold writeAlignmentBufferSize at hlen
  rw [hcells]
  by_cases hin : a < 16
  · -- the part of the buffer behind the header
    obtain ⟨n, rfl⟩ : ∃ n, a = 0 + (8 + n) := ⟨a - 8, by omega⟩
    rw [Cells.put_add (by omega)]
    simp only [hdrBytes]
    rw [getElem_append_right (by simp)]
    exact getElem_replicate ..
  · rw [Cells.put_of_lt_or_le (by omega)]
    exact h a (Nat.zero_le _) h2

def nth (c : Config) (oldest n : ℕ) : ℕ := (oldest + n) % c.sectorCnt

theorem nth_lt (h : 0 < c.sectorCnt) (oldest n : ℕ) : nth c oldest n < c.sectorCnt := Nat.mod_lt _ h

theorem nth_zero (h : oldest < c.sectorCnt) : nth c oldest 0 = oldest := Nat.mod_eq_of_lt h

theorem nth_inj (hm : m < c.sectorCnt) (hn : n < c.sectorCnt) (h : nth c oldest m = nth c oldest n)
    : m = n := by
  have hmod : m ≡ n [MOD c.sectorCnt] := .add_left_cancel' oldest h
  exact Nat.ModEq.eq_of_lt_of_lt hmod hm hn

theorem getnextSector_eq (h : sector < c.sectorCnt) :
    getnextSector c sector = (sector + 1) % c.sectorCnt := by
  unfold getnextSector
  split
  · rw [show sector + 1 = c.sectorCnt by omega, Nat.mod_self]
  · rw [Nat.mod_eq_of_lt (by omega)]

theorem getnextSector_nth (h : 0 < c.sectorCnt) (oldest n : ℕ) :
    getnextSector c (nth c oldest n) = nth c oldest (n + 1) := by
  rw [getnextSector_eq (nth_lt h ..), nth, Nat.mod_add_mod]
  rfl

theorem nth_nth (oldest m n : ℕ) : nth c (nth c oldest m) n = nth c oldest (m + n) := by
  rw [nth, nth, Nat.mod_add_mod, add_assoc]
  rfl

theorem exists_nth (ho : oldest < c.sectorCnt) (h : sector < c.sectorCnt) :
    ∃ n < c.sectorCnt, nth c oldest n = sector := by
  by_cases hle : oldest ≤ sector
  · refine ⟨sector - oldest, by omega, ?_⟩
    rw [nth, Nat.add_sub_cancel' hle, Nat.mod_eq_of_lt h]
  · refine ⟨c.sectorCnt - oldest + sector, by omega, ?_⟩
    rw [nth, show oldest + (c.sectorCnt - oldest + sector) = sector + c.sectorCnt by omega,
      Nat.add_mod_right, Nat.mod_eq_of_lt h]

/-- The sectors from the oldest to the active one, which is `k` further, have the elements and
consecutive ids, and the elements of the active one end at an offset; the other sectors are
erased. -/
structure Sectors (c : Config) (f : Flash) (oldest fin : ℕ) (live : List Item) (k first : ℕ) :
    Prop where
  lt : k < c.sectorCnt
  oldest_lt : oldest < c.sectorCnt
  header : ∀ n ≤ k, sectorHdrRead c f (nth c oldest n) = .ok (some ((first + n) % 2 ^ 16))
  content : ∀ n ≤ k, ∃ off, Content c f (nth c oldest n) (firstOff c)
    (inSector live (nth c oldest n)) off ∧ (n = k → off = fin)
  free : ∀ n, k < n → n < c.sectorCnt → Erased c f (nth c oldest n) 0
  order : live = (List.range (k + 1)).flatMap fun n => inSector live (nth c oldest n)

theorem mem_inSector : i ∈ inSector live sector ↔ i ∈ live ∧ i.entry.sector = some sector := by
  simp [inSector]

theorem inSector_map (hg : ∀ j, (g j).entry = j.entry) (sector : ℕ) :
    inSector (live.map g) sector = (inSector live sector).map g := by
  simp [inSector, filter_map, comp_def, hg]

theorem inSector_append (i : Item) (sector : ℕ) : inSector (live ++ [i]) sector =
    if i.entry.sector = some sector then inSector live sector ++ [i] else inSector live sector := by
  unfold inSector
  rw [filter_append, filter_singleton]
  by_cases h : i.entry.sector = some sector
  · rw [if_pos h, decide_eq_true h]
    rfl
  · rw [if_neg h, decide_eq_false h, cond_false, append_nil]

theorem inSector_filter_ne (hne : sector ≠ t) :
    inSector (live.filter fun i => i.entry.sector ≠ some t) sector = inSector live sector := by
  unfold inSector
  rw [filter_filter]
  refine filter_congr fun i _ => ?_
  by_cases h : i.entry.sector = some sector
  · simp [h, hne]
  · simp [h]

namespace Sectors

variable {oldest : ℕ}

section

variable (h : Sectors c f oldest fin live k first)
include h

theorem pos : 0 < c.sectorCnt := (Nat.zero_le _).trans_lt h.lt

theorem exists_of_mem (hi : i ∈ live) : ∃ n ≤ k, i.entry.sector = some (nth c oldest n) := by
  have hmem := hi
  rw [h.order] at hmem
  obtain ⟨n, hn, hin⟩ := mem_flatMap.1 hmem
  exact ⟨n, Nat.le_of_lt_succ (mem_range.1 hn), (mem_inSector.1 hin).2⟩

theorem lies (hi : i ∈ live) (hs : i.entry.sector = some sector) : Lies c f sector i := by
  obtain ⟨n, hn, hsec⟩ := h.exists_of_mem hi
  obtain rfl := Option.some.inj (hs.symm.trans hsec)
  obtain ⟨off, hc, -⟩ := h.content n hn
  exact hc.lies (mem_inSector.2 ⟨hi, hs⟩)

end

theorem not_mem_of_append (h : Sectors c f oldest fin (live ++ [i]) k first)
    (hs : i.entry.sector = some sector) : i ∉ live := by
  obtain ⟨n, hn, hsec⟩ := h.exists_of_mem (mem_append_right _ mem_cons_self)
  obtain rfl := Option.some.inj (hs.symm.trans hsec)
  obtain ⟨off, hc, -⟩ := h.content n hn
  have hnodup := hc.nodup
  rw [inSector_append, if_pos hs, nodup_append] at hnodup
  exact fun hi => hnodup.2.2 i (mem_inSector.2 ⟨hi, hs⟩) i mem_cons_self rfl

section

variable (h : Sectors c f oldest fin live k first)
include h

theorem eq_of_entry_eq (hi : i ∈ live) (hj : j ∈ live) (heq : i.entry = j.entry) : i = j := by
  obtain ⟨n, hn, hsec⟩ := h.exists_of_mem hi
  obtain ⟨off, hc, -⟩ := h.content n hn
  exact hc.eq_of_entry_eq (mem_inSector.2 ⟨hi, hsec⟩) (mem_inSector.2 ⟨hj, heq ▸ hsec⟩) heq

theorem inSector_free (hp : k < p) (hlt : p < c.sectorCnt) :
    inSector live (nth c oldest p) = [] := by
  refine filter_eq_nil_iff.2 fun i hi => ?_
  obtain ⟨n, hn, hsec⟩ := h.exists_of_mem hi
  rw [hsec, decide_eq_true_iff]
  intro heq
  have hnp := nth_inj (by omega) hlt (Option.some.inj heq)
  omega

theorem touch (i' : Item) (hi : i ∈ live) (hs : i.entry.sector = some sector)
    (hsame : Cells.SameOff (f sector) cells i.entry.elem.elemOff (behind c i.entry.elem))
    (hentry : i'.entry = i.entry) (hlies : Lies c (update f sector cells) sector i') :
    Sectors c (update f sector cells) oldest fin
      (live.map fun j => if j.entry = i.entry then i' else j) k first := by
  have hg : ∀ j : Item, (if j.entry = i.entry then i' else j).entry = j.entry := by
    intro j
    split
    next heq => rw [hentry, heq]
    next => rfl
  have hcells : ∀ t, t ≠ sector → update f sector cells t = f t := fun t ht => update_of_ne ht ..
  have hself : update f sector cells sector = cells := update_self ..
  obtain ⟨m, hm, hsec⟩ := h.exists_of_mem hi
  obtain rfl := Option.some.inj (hs.symm.trans hsec)
  obtain ⟨off, hc, hoff⟩ := h.content m hm
  have hmem := mem_inSector.2 ⟨hi, hs⟩
  obtain ⟨hbefore, hend⟩ := hc.bounds.2 i hmem
  have hge := firstOff_ge (c := c)
  refine ⟨h.lt, h.oldest_lt, fun n hn => ?_, fun n hn => ?_, fun n h1 h2 => ?_, ?_⟩
  · rw [← h.header n hn]
    refine hdrRead_congr fun a _ ha => ?_
    by_cases ht : nth c oldest n = nth c oldest m
    · rw [ht, hself]
      exact hsame a (.inl (by omega))
    · rw [hcells _ ht]
  · rw [inSector_map hg]
    by_cases ht : nth c oldest n = nth c oldest m
    · obtain rfl := nth_inj (by have := h.lt; omega) (by have := h.lt; omega) ht
      refine ⟨off, hc.map _ (fun j hj => ⟨hg j, ?_⟩) fun a h1 h2 => ?_, hoff⟩
      · split
        next => exact hlies
        next hne =>
          have hdisj := hc.disjoint hmem hj (fun heq => hne (by rw [heq]))
          refine (hc.lies hj).frame ?_
          rw [hself]
          exact hsame.on (by omega)
      · rw [hself, hsame a (.inr (by omega))]
        exact hc.erased a h1 h2
    · obtain ⟨off', hc', hoff'⟩ := h.content n hn
      have hid : (inSector live (nth c oldest n)).map
          (fun j => if j.entry = i.entry then i' else j) = inSector live (nth c oldest n) := by
        refine (map_congr_left fun j hj => if_neg fun heq => ht ?_).trans (map_id _)
        have hj' := (mem_inSector.1 hj).2
        rw [heq, hs] at hj'
        exact (Option.some.inj hj').symm
      rw [hid]
      exact ⟨off', hc'.frame fun a _ _ => by rw [hcells _ ht], hoff'⟩
  · intro a h3 h4
    rw [hcells _ fun heq => absurd (nth_inj h2 (by omega) heq) (by omega)]
    exact h.free n h1 h2 a h3 h4
  · conv_lhs => rw [h.order]
    rw [map_flatMap]
    simp [inSector_map hg]

theorem append (cells : Cells UInt8) (i : Item) (hs : i.entry.sector = some (nth c oldest k))
    (hoff : i.entry.elem.elemOff = fin)
    (hsame : Cells.SameOff (f (nth c oldest k)) cells i.entry.elem.elemOff (behind c i.entry.elem))
    (hlies : Lies c (update f (nth c oldest k) cells) (nth c oldest k) i) :
    Sectors c (update f (nth c oldest k) cells) oldest (behind c i.entry.elem)
      (live ++ [i]) k first := by
  have hcells : ∀ t, t ≠ nth c oldest k → update f (nth c oldest k) cells t = f t :=
    fun t ht => update_of_ne ht ..
  have hself : update f (nth c oldest k) cells (nth c oldest k) = cells := update_self ..
  obtain ⟨off, hc, hfin⟩ := h.content k le_rfl
  obtain rfl := hfin rfl
  have hbounds := hlies.bounds
  have hbefore := hc.bounds.1
  have hge := firstOff_ge (c := c)
  have hklt := h.lt
  have hne : ∀ n < k, nth c oldest n ≠ nth c oldest k := fun n hn heq =>
    absurd (nth_inj (by omega) (by omega) heq) (by omega)
  have hlast : inSector (live ++ [i]) (nth c oldest k) = inSector live (nth c oldest k) ++ [i] := by
    rw [inSector_append, if_pos hs]
  have hother : ∀ n < k, inSector (live ++ [i]) (nth c oldest n) = inSector live (nth c oldest n) := by
    intro n hn
    rw [inSector_append, if_neg]
    rw [hs]
    exact fun heq => hne n hn (Option.some.inj heq).symm
  refine ⟨h.lt, h.oldest_lt, fun n hn => ?_, fun n hn => ?_, fun n h1 h2 => ?_, ?_⟩
  · rw [← h.header n hn]
    refine hdrRead_congr fun a _ ha => ?_
    by_cases ht : n = k
    · rw [ht, hself]
      exact hsame a (.inl (by omega))
    · rw [hcells _ (hne n (by omega))]
  · by_cases ht : n = k
    · subst ht
      rw [hlast]
      refine ⟨_, hc.append ?_ hlies hoff fun a h1 h2 => ?_, fun _ => rfl⟩
      · rw [hself]
        exact hsame.on (.inl (by omega))
      · rw [hself, hsame a (.inr h1)]
        exact hc.erased a (by omega) h2
    · obtain ⟨off', hc', -⟩ := h.content n hn
      rw [hother n (by omega)]
      exact ⟨off', hc'.frame fun a _ _ => by rw [hcells _ (hne n (by omega))], fun heq => absurd heq ht⟩
  · intro a h3 h4
    rw [hcells _ fun heq => absurd (nth_inj h2 (by omega) heq) (by omega)]
    exact h.free n h1 h2 a h3 h4
  · conv_lhs => rw [h.order]
    rw [range_succ, flatMap_append, flatMap_append, flatMap_singleton,
      flatMap_singleton, hlast, ← append_assoc]
    congr 2
    exact flatMap_congr fun n hn => (hother n (mem_range.1 hn)).symm

theorem openNext (hvalid : c.Valid) (hlt : k + 1 < c.sectorCnt)
    (hid : id % 2 ^ 16 = (first + (k + 1)) % 2 ^ 16) :
    Sectors c (withHeader c f (nth c oldest (k + 1)) id) oldest (firstOff c) live (k + 1) first := by
  have hcells : ∀ n < c.sectorCnt, n ≠ k + 1 →
      withHeader c f (nth c oldest (k + 1)) id (nth c oldest n) = f (nth c oldest n) :=
    fun n hn hne => update_of_ne (fun heq => hne (nth_inj hn hlt heq)) ..
  have hsize := hvalid.size _ (nth_lt (by omega) oldest (k + 1))
  refine ⟨hlt, h.oldest_lt, fun n hn => ?_, fun n hn => ?_, fun n h1 h2 => ?_, ?_⟩
  · by_cases ht : n = k + 1
    · rw [ht, ← hid]
      refine hdrRead_withHeader hvalid.magic (le_trans ?_ hsize)
      decide
    · rw [← h.header n (by omega)]
      exact hdrRead_congr fun a _ _ => by rw [hcells n (by omega) ht]
  · by_cases ht : n = k + 1
    · rw [ht, h.inSector_free (Nat.lt_succ_self _) hlt]
      exact ⟨_, .nil (erased_withHeader (h.free _ (Nat.lt_succ_self _) hlt)), fun _ => rfl⟩
    · obtain ⟨off, hc, -⟩ := h.content n (by omega)
      exact ⟨off, hc.frame fun a _ _ => by rw [hcells n (by omega) ht], fun heq => absurd heq ht⟩
  · intro a h3 h4
    rw [hcells n h2 (by omega)]
    exact h.free n (by omega) h2 a h3 h4
  · rw [range_succ, flatMap_append, flatMap_singleton,
      h.inSector_free (Nat.lt_succ_self _) hlt, append_nil]
    exact h.order

end

theorem eraseSector_self : Erased c (eraseSector c f sector) sector 0 := by
  intro a h1 h2
  rw [eraseSector, update_self]
  exact Cells.fill_of_mem (Nat.zero_le _) (by omega)

theorem eraseSector_of_ne (h : t ≠ sector) : eraseSector c f sector t = f t := update_of_ne h ..

theorem drop (h : Sectors c f oldest fin live (k + 1) first) :
    Sectors c (eraseSector c f oldest) (nth c oldest 1) fin
      (live.filter fun i => i.entry.sector ≠ some oldest) k (first + 1) := by
  have hklt := h.lt
  have h0 := nth_zero h.oldest_lt
  have hne : ∀ n, 1 + n < c.sectorCnt → nth c oldest (1 + n) ≠ oldest := by
    intro n hn heq
    rw [← h0, h0] at heq
    have hinj := nth_inj hn (by omega) (heq.trans h0.symm)
    omega
  refine ⟨by omega, nth_lt (by omega) .., fun n hn => ?_, fun n hn => ?_, fun n h1 h2 => ?_, ?_⟩
  · rw [nth_nth, add_assoc, ← h.header (1 + n) (by omega)]
    exact hdrRead_congr fun a _ _ => by rw [eraseSector_of_ne (hne n (by omega))]
  · obtain ⟨off, hc, hoff⟩ := h.content (1 + n) (by omega)
    rw [nth_nth, inSector_filter_ne (hne n (by omega))]
    exact ⟨off, hc.frame fun a _ _ => by rw [eraseSector_of_ne (hne n (by omega))],
      fun heq => hoff (by omega)⟩
  · rw [nth_nth]
    by_cases hwrap : 1 + n = c.sectorCnt
    · -- the last position is now that of the old sector
      rw [hwrap, nth, Nat.add_mod_right, Nat.mod_eq_of_lt h.oldest_lt]
      exact eraseSector_self
    · intro a h3 h4
      rw [eraseSector_of_ne (hne n (by omega))]
      exact h.free (1 + n) (by omega) (by omega) a h3 h4
  · have hsplit := h.order
    rw [range_succ_eq_map, flatMap_cons, h0, flatMap_map] at hsplit
    have hfirst : (inSector live oldest).filter (fun i => i.entry.sector ≠ some oldest) = [] :=
      filter_eq_nil_iff.2 fun i hi => by simp [(mem_inSector.1 hi).2]
    conv_lhs => rw [hsplit]
    rw [filter_append, hfirst, filter_flatMap]
    refine flatMap_congr fun n hn => ?_
    have hn' := mem_range.1 hn
    rw [nth_nth, inSector_filter_ne (hne n (by omega)), Nat.succ_eq_one_add]
    refine filter_eq_self.2 fun i hi => ?_
    rw [(mem_inSector.1 hi).2]
    simpa using hne n (by omega)

theorem restart (h : Sectors c f oldest fin live 0 first) (hvalid : c.Valid)
    (hid : id % 2 ^ 16 = (first + 1) % 2 ^ 16) :
    Sectors c (withHeader c (eraseSector c f oldest) (nth c oldest 1) id) (nth c oldest 1)
      (firstOff c) (live.filter fun i => i.entry.sector ≠ some oldest) 0 (first + 1) := by
  have hpos := h.pos
  have h0 := nth_zero h.oldest_lt
  have hnil : live.filter (fun i => i.entry.sector ≠ some oldest) = [] := by
    refine filter_eq_nil_iff.2 fun i hi => ?_
    obtain ⟨n, hn, hsec⟩ := h.exists_of_mem hi
    obtain rfl : n = 0 := by omega
    simp [hsec, h0]
  have h1lt := nth_lt hpos oldest 1
  have hsize := hvalid.size _ h1lt
  -- every sector but the next one is erased now
  have herased : ∀ n, n < c.sectorCnt → Erased c (eraseSector c f oldest) (nth c oldest (1 + n)) 0 := by
    intro n hn
    by_cases hwrap : 1 + n = c.sectorCnt
    · rw [hwrap, nth, Nat.add_mod_right, Nat.mod_eq_of_lt h.oldest_lt]
      exact eraseSector_self
    intro a h3 h4
    rw [eraseSector_of_ne]
    · exact h.free (1 + n) (by omega) (by omega) a h3 h4
    · intro heq
      have hinj := nth_inj (by omega) hpos (heq.trans h0.symm)
      omega
  refine ⟨hpos, h1lt, fun n hn => ?_, fun n hn => ?_, fun n h1 h2 => ?_, ?_⟩
  · obtain rfl : n = 0 := by omega
    rw [nth_zero h1lt, ← hid]
    refine hdrRead_withHeader hvalid.magic (le_trans ?_ hsize)
    decide
  · obtain rfl : n = 0 := by omega
    rw [nth_zero h1lt, hnil]
    exact ⟨_, .nil (erased_withHeader (herased 0 hpos)), fun _ => rfl⟩
  · intro a h3 h4
    have hne : nth c (nth c oldest 1) n ≠ nth c oldest 1 := by
      intro heq
      have hinj := nth_inj h2 hpos (heq.trans (nth_zero h1lt).symm)
      omega
    rw [show withHeader c _ _ _ _ = _ from update_of_ne hne ..]
    rw [nth_nth] at h4 ⊢
    exact herased n h2 a h3 h4
  · rw [hnil]
    rfl

end Sectors

structure Layout (c : Config) (s : State) (live : List Item) (k first : ℕ) : Prop
    extends Sectors c s.flash s.oldest s.active.elemOff live k first where
  active_eq : s.activeSector = nth c s.oldest k
  id_eq : s.activeId = (first + k) % 2 ^ 16

namespace Layout

section

variable (h : Layout c s live k first)
include h

theorem newSector (hnew : newSector c s cnt = some sector) :
    k + 1 < c.sectorCnt ∧ sector = nth c s.oldest (k + 1) := by
  unfold Fcb.newSector at hnew
  split at hnew
  case isFalse => simp at hnew
  next hfree =>
  have hnext : getnextSector c s.activeSector = nth c s.oldest (k + 1) := by
    rw [h.active_eq, getnextSector_nth h.pos]
  have hne : getnextSector c s.activeSector ≠ s.oldest := by
    cases cnt with
    | zero => simpa [sectorsFree] using hfree
    | succ cnt =>
      simp only [sectorsFree, Bool.and_eq_true, bne_iff_ne] at hfree
      exact hfree.1
  refine ⟨?_, by rw [← Option.some.inj hnew, hnext]⟩
  by_contra hge
  have hlt := h.lt
  apply hne
  rw [hnext, show k + 1 = c.sectorCnt by omega, nth, Nat.add_mod_right, Nat.mod_eq_of_lt h.oldest_lt]

theorem newSector_zero (hlt : k + 1 < c.sectorCnt) :
    Fcb.newSector c s 0 = some (nth c s.oldest (k + 1)) := by
  have hnext : getnextSector c s.activeSector = nth c s.oldest (k + 1) := by
    rw [h.active_eq, getnextSector_nth h.pos]
  have hne : nth c s.oldest (k + 1) ≠ s.oldest := by
    intro heq
    have hinj := nth_inj hlt h.pos (heq.trans (nth_zero h.oldest_lt).symm)
    omega
  unfold Fcb.newSector
  rw [hnext, if_pos (by simpa [sectorsFree, hnext] using hne)]

theorem openSector (hvalid : c.Valid) (hlt : k + 1 < c.sectorCnt) :
    ∃ s', openSector c s (nth c s.oldest (k + 1)) = .ok s' ∧ s'.oldest = s.oldest ∧
      s'.active.elemOff = firstOff c ∧ Layout c s' live (k + 1) first := by
  have hid : (s.activeId + 1) % 2 ^ 16 = (first + (k + 1)) % 2 ^ 16 := by
    rw [h.id_eq]
    omega
  refine ⟨_, openSector_eq (hvalid.size _ (nth_lt h.pos ..)), rfl, rfl, ?_⟩
  exact { h.toSectors.openNext hvalid hlt hid with
    active_eq := rfl
    id_eq := hid }

end

end Layout

end ZephyrRtos.Fcb
