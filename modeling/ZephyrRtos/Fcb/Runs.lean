import Mathlib.Data.List.Nodup
import ZephyrRtos.Fcb.Calls
import ZephyrRtos.Lib.Run

namespace ZephyrRtos.Fcb

open List Lib Sys

/-- What the user of a buffer can do: `write` is a write of data into the `n`th of the elements that
were appended and not finished, and `init` is a restart. -/
inductive Action
  | append (len : ℕ)
  | write (n off : ℕ) (bs : List UInt8)
  | finish (n : ℕ)
  | rotate
  | appendToScratch
  | init

inductive Event
  | appended (e : Entry)
  | finished (e : Entry)
  | rotated (sector : ℕ)

/-- A buffer in use, and the elements that the user has appended and not finished. -/
structure Session where
  fcb : State
  pending : List Entry

variable (c : Config)

def step (s : Session) : Action → Option (Session × List Event)
  | .append len =>
    match append c s.fcb len with
    | .error _ => some (s, [])
    | .ok (fcb, ⟨sector, loc⟩) =>
      let e : Entry := ⟨sector, { loc with dataLen := len }⟩
      some (⟨fcb, s.pending ++ [e]⟩, [.appended e])
  | .write n off bs =>
    match s.pending[n]? with
    | some ⟨some sector, loc⟩ =>
      -- the data has its room filled up to the alignment
      if off + bs.length ≤ lenInFlash c loc.dataLen then
        some (⟨{ s.fcb with
          flash := Function.update s.fcb.flash sector
            ((s.fcb.flash sector).put (loc.dataOff + off) bs) }, s.pending⟩, [])
      else none
    | _ => none
  | .finish n =>
    match s.pending[n]? with
    | some ⟨some sector, loc⟩ =>
      match appendFinish c s.fcb sector loc with
      | .error _ => some (s, [])
      | .ok fcb => some (⟨fcb, s.pending.erase ⟨some sector, loc⟩⟩, [.finished ⟨some sector, loc⟩])
    | _ => none
  | .rotate =>
    match rotate c s.fcb with
    | (.error _, fcb) => some (⟨fcb, s.pending⟩, [])
    | (.ok _, fcb) => some (⟨fcb, s.pending.filter fun e => e.sector ≠ some s.fcb.oldest⟩,
        [.rotated s.fcb.oldest])
  | .appendToScratch =>
    match appendToScratch c s.fcb with
    | .error _ => some (s, [])
    | .ok fcb => some (⟨fcb, s.pending⟩, [])
  | .init =>
    match init c s.fcb.flash with
    | .error _ => none
    | .ok fcb => some (⟨fcb, []⟩, [])

def sessions (boot : State) : System Session Action Event where
  init := ⟨boot, []⟩
  step := step c

def NoRestart (s : Session) : Action → Prop
  | .init => ¬ Straddles c s.fcb.flash
  | _ => True

instance (s : Session) (a : Action) : Decidable (NoRestart c s a) :=
  match a with
  | .init => inferInstanceAs (Decidable (¬ _))
  | .append _ | .write _ _ _ | .finish _ | .rotate | .appendToScratch => isTrue trivial

variable {c}

/-- The elements in sectors that were not rotated, in the order of the calls. -/
def record (live : List Item) : Event → List Item
  | .appended e => live ++ [⟨e, false⟩]
  | .finished e => live.map fun i => if i.entry = e then ⟨e, true⟩ else i
  | .rotated sector => live.filter fun i => i.entry.sector ≠ some sector

def live (es : List Event) : List Item := es.foldl record []

theorem live_snoc (es : List Event) (e : Event) : live (es ++ [e]) = record (live es) e := by
  rw [live, foldl_append]
  rfl

variable {boot : State} {s : State} {es : List Event} {items : List Item} {k first : ℕ}

structure Inv (c : Config) (es : List Event) (s : Session) : Prop where
  layout : ∃ k first, Layout c s.fcb (live es) k first
  pending : ∀ e ∈ s.pending, ⟨e, false⟩ ∈ live es
  nodup : s.pending.Nodup

section

variable (h : Inv c es ss)
include h

theorem Inv.append (hvalid : c.Valid) (hs : step c ss (.append len) = some (ss', es')) :
    Inv c (es ++ es') ss' := by
  obtain ⟨k, first, hlay⟩ := h.layout
  simp only [step] at hs
  obtain ⟨err, happ⟩ | ⟨s', sector, loc, k', happ, -, h'⟩ := hlay.append hvalid len
  · simp only [happ] at hs
    obtain ⟨rfl, rfl⟩ := hs
    rwa [append_nil]
  simp only [happ] at hs
  obtain ⟨rfl, rfl⟩ := hs
  have hnew := h'.not_mem_of_append rfl
  refine ⟨⟨k', first, by rw [live_snoc]; exact h'⟩, fun e he => ?_, ?_⟩
  · rw [live_snoc]
    obtain he | he := mem_append.1 he
    · exact mem_append_left _ (h.pending e he)
    · rw [mem_singleton.1 he]
      exact mem_append_right _ mem_cons_self
  · refine nodup_append.2 ⟨h.nodup, pairwise_singleton _ _, fun e he e' he' heq => ?_⟩
    rw [mem_singleton.1 he'] at heq
    exact hnew (heq ▸ h.pending e he)

theorem Inv.write (hs : step c ss (.write n off bs) = some (ss', es')) : Inv c (es ++ es') ss' := by
  obtain ⟨k, first, hlay⟩ := h.layout
  simp only [step] at hs
  split at hs
  next sector loc hn =>
    split at hs
    next hin =>
      obtain ⟨rfl, rfl⟩ := hs
      rw [append_nil]
      have hmem := h.pending _ (mem_of_getElem? hn)
      exact ⟨⟨k, first, hlay.writeData hmem rfl hin⟩, h.pending, h.nodup⟩
    next => simp at hs
  next => simp at hs

theorem Inv.finish (hvalid : c.Valid) (hs : step c ss (.finish n) = some (ss', es')) :
    Inv c (es ++ es') ss' := by
  obtain ⟨k, first, hlay⟩ := h.layout
  simp only [step] at hs
  split at hs
  next sector loc hn =>
    have hmem := h.pending _ (mem_of_getElem? hn)
    obtain ⟨s', hfin, -, h'⟩ := hlay.finish hvalid hmem rfl
    simp only [hfin] at hs
    obtain ⟨rfl, rfl⟩ := hs
    refine ⟨⟨k, first, by rw [live_snoc]; exact h'⟩, fun e he => ?_, h.nodup.erase _⟩
    obtain ⟨hne, hin⟩ := h.nodup.mem_erase_iff.1 he
    rw [live_snoc]
    exact mem_map.2 ⟨_, h.pending e hin, if_neg hne⟩
  next => simp at hs

theorem Inv.rotate (hvalid : c.Valid) (hs : step c ss .rotate = some (ss', es')) :
    Inv c (es ++ es') ss' := by
  obtain ⟨k, first, hlay⟩ := h.layout
  obtain ⟨s', hrot, h'⟩ := hlay.rotate hvalid
  simp only [step, hrot] at hs
  obtain ⟨rfl, rfl⟩ := hs
  refine ⟨⟨_, _, by rw [live_snoc]; exact h'⟩, fun e he => ?_, h.nodup.filter _⟩
  obtain ⟨hin, hne⟩ := mem_filter.1 he
  rw [live_snoc]
  exact mem_filter.2 ⟨h.pending e hin, hne⟩

end

theorem Inv.step (hvalid : c.Valid) (hc : c.Checked) (h : Inv c es ss) (hok : NoRestart c ss a)
    (hs : step c ss a = some (ss', es')) : Inv c (es ++ es') ss' := by
  cases a with
  | append len => exact h.append hvalid hs
  | write n off bs => exact h.write hs
  | finish n => exact h.finish hvalid hs
  | rotate => exact h.rotate hvalid hs
  | appendToScratch =>
    obtain ⟨k, first, hlay⟩ := h.layout
    simp only [Fcb.step] at hs
    obtain happ | ⟨s', happ, -, h'⟩ := hlay.appendToScratch hvalid
    · simp only [happ] at hs
      obtain ⟨rfl, rfl⟩ := hs
      rwa [append_nil]
    · simp only [happ] at hs
      obtain ⟨rfl, rfl⟩ := hs
      rw [append_nil]
      exact ⟨⟨_, _, h'⟩, h.pending, h.nodup⟩
  | init =>
    obtain ⟨k, first, hlay⟩ := h.layout
    obtain ⟨s', hinit, ⟨-, hr⟩ | ⟨hstr, -⟩⟩ := hlay.init hvalid hc
    · simp only [Fcb.step, hinit] at hs
      obtain ⟨rfl, rfl⟩ := hs
      rw [append_nil]
      exact ⟨⟨k, first, hlay.of_restored hr⟩, nofun, nodup_nil⟩
    · exact absurd hstr hok

theorem inv_of_reaches (hvalid : c.Valid) (hboot : init c (blank c) = .ok boot)
    (h : Reaches (sessions c boot) (NoRestart c) es ss) : c.Checked ∧ Inv c es ss := by
  have hc := checked_of_init hboot
  have hpos : 0 < c.sectorCnt := by
    have hscratch := hc.scratch
    omega
  obtain rfl : booted c = boot := Except.ok.inj ((init_blank hvalid hc).symm.trans hboot)
  refine ⟨hc, Run.invariant ?_ (fun es t a u es' hI hok hs => hI.step hvalid hc hok hs) h⟩
  exact ⟨⟨0, 0, layout_booted hvalid hpos⟩, nofun, nodup_nil⟩

def Item.Marked (c : Config) (f : Flash) (i : Item) : Prop :=
  Fcb.Marked c f (i.entry.sector.getD 0) i.stored

instance (f : Flash) (i : Item) : Decidable (i.Marked c f) :=
  inferInstanceAs (Decidable (Fcb.Marked ..))

namespace Layout

section

variable (h : Layout c s items k first)
include h

theorem path (m n : ℕ) (hk : n + m = k) :
    Path c s (nth c s.oldest n) ((range m).map fun i => nth c s.oldest (n + 1 + i)) := by
  induction m generalizing n with
  | zero =>
    obtain rfl : n = k := hk
    have hlast := Path.last (c := c) (s := s)
    rwa [h.active_eq] at hlast
  | succ m ih =>
    have hlt := h.lt
    have hne : nth c s.oldest n ≠ s.activeSector := by
      rw [h.active_eq]
      intro heq
      have hinj := nth_inj (by omega) hlt heq
      omega
    have hrest := ih (n + 1) (by omega)
    rw [range_succ_eq_map, map_cons, map_map, ← getnextSector_nth h.pos]
    refine .next hne ?_
    rw [getnextSector_nth h.pos]
    convert hrest using 3
    rw [Function.comp_apply]
    congr 1
    omega

theorem marked_eq (hn : n ≤ k) :
    ∃ ps fin, Stored c s.flash (nth c s.oldest n) ps (.free fin) ∧
      (marked c s.flash (nth c s.oldest n) ps).map (fun p => (nth c s.oldest n, p.2)) =
        ((inSector items (nth c s.oldest n)).filter fun i => i.Marked c s.flash).map
          fun i => (nth c s.oldest n, i.entry.elem) := by
  obtain ⟨fin, hc, -⟩ := h.content n hn
  refine ⟨_, fin, hc.chain, ?_⟩
  unfold marked
  rw [filter_map, map_map]
  refine congrArg _ (filter_congr fun i hi => ?_)
  have hsec := (mem_inSector.1 hi).2
  simp [Item.Marked, hsec]

theorem ahead (ns : List ℕ) (hk : ∀ n ∈ ns, n ≤ k) :
    Ahead c s (ns.map fun n => nth c s.oldest n) (ns.flatMap fun n =>
      ((inSector items (nth c s.oldest n)).filter fun i => i.Marked c s.flash).map
        fun i => (nth c s.oldest n, i.entry.elem)) := by
  induction ns with
  | nil => exact .nil
  | cons n ns ih =>
    obtain ⟨ps, fin, hstored, heq⟩ := h.marked_eq (hk n mem_cons_self)
    rw [flatMap_cons, ← heq]
    exact .cons hstored (ih fun m hm => hk m (mem_cons_of_mem _ hm))

theorem undamaged (hn : n ≤ k) : Undamaged c s (nth c s.oldest n) := by
  intro ps loc hdam
  obtain ⟨fin, hc, -⟩ := h.content n hn
  exact absurd (Chain.unique hc.chain hdam).2 nofun

theorem visits (dataOff dataLen : ℕ) :
    Visits c s ⟨none, 0, dataOff, dataLen⟩
      ((items.filter fun i => i.Marked c s.flash).map Item.entry) := by
  have h0 := nth_zero h.oldest_lt
  obtain ⟨ps, fin, hstored, heq⟩ := h.marked_eq (Nat.zero_le k)
  have hpath := h.path k 0 (zero_add k)
  have hahead := h.ahead ((range k).map fun i => 1 + i) fun n hn => by
    obtain ⟨m, hm, rfl⟩ := mem_map.1 hn
    have hlt := mem_range.1 hm
    omega
  rw [map_map, flatMap_map] at hahead
  rw [h0] at hstored heq hpath
  have hsound : ∀ t ∈ s.oldest :: (range k).map (fun i => nth c s.oldest (1 + i)),
      Undamaged c s t := by
    intro t ht
    obtain rfl | ht := mem_cons.1 ht
    · have hund := h.undamaged (Nat.zero_le k)
      rwa [h0] at hund
    · obtain ⟨n, hn, rfl⟩ := mem_map.1 ht
      exact h.undamaged (by have := mem_range.1 hn; omega)
  have hvisits := hstored.visits hpath
    (by rw [length_map, length_range]; exact h.lt) hahead hsound dataOff dataLen
  rw [heq] at hvisits
  have hlist : items.filter (fun i => i.Marked c s.flash) = (range (k + 1)).flatMap fun n =>
      (inSector items (nth c s.oldest n)).filter fun i => i.Marked c s.flash := by
    conv_lhs => rw [h.order]
    rw [filter_flatMap]
  have hentry : ∀ n, ((inSector items (nth c s.oldest n)).filter fun i => i.Marked c s.flash).map
      (fun i => .of (nth c s.oldest n, i.entry.elem)) =
      ((inSector items (nth c s.oldest n)).filter fun i => i.Marked c s.flash).map Item.entry := by
    intro n
    refine map_congr_left fun i hi => ?_
    have hsec := (mem_inSector.1 (mem_filter.1 hi).1).2
    show (⟨some _, _⟩ : Entry) = _
    rw [← hsec]
  rw [map_append, map_flatMap] at hvisits
  simp only [map_map] at hvisits
  rw [hlist, range_succ_eq_map, flatMap_cons, flatMap_map, map_append, map_flatMap]
  simp only [← hentry, Nat.succ_eq_one_add]
  rwa [h0]

theorem sectorsLeft_nth (hn : n ≤ k) : sectorsLeft c s (nth c s.oldest n) = k - n := by
  have hpath := h.path (k - n) n (by omega)
  have hactive : s.activeSector < c.sectorCnt := by
    rw [h.active_eq]
    exact nth_lt h.pos ..
  rw [← hpath.length_eq hactive (nth_lt h.pos ..), length_map, length_range]

end

end Layout

theorem Visits.unique (h : Visits c s e l) (h' : Visits c s e l') : l = l' := by
  induction h generalizing l' with
  | stop hstop =>
    cases h' with
    | stop _ => rfl
    | next hnext _ => exact absurd (hstop.symm.trans (congrArg Prod.fst hnext)) nofun
  | next hnext _ ih =>
    cases h' with
    | stop hstop => exact absurd (hstop.symm.trans (congrArg Prod.fst hnext)) nofun
    | next hnext' hrest =>
      obtain rfl := (Prod.mk.inj (hnext.symm.trans hnext')).2
      rw [ih hrest]

/-- The erased byte at the place of its end marker looks like the end marker of the element. -/
def LooksFinished (c : Config) (f : Flash) (i : Item) : Prop :=
  crcOf f (i.entry.sector.getD 0) i.stored = c.eraseValue ∨
  (c.allowFixedEndmarker ∧ c.crcDisabled) ∧ c.eraseValue = fixedEndmarker

namespace Layout

theorem marked_iff (h : Layout c s items k first) (hi : i ∈ items) :
    i.Marked c s.flash ↔ i.finished = true ∨ LooksFinished c s.flash i := by
  obtain ⟨n, -, hsec⟩ := h.exists_of_mem hi
  have hlies := h.lies hi hsec
  have hget : i.entry.sector.getD 0 = nth c s.oldest n := by rw [hsec, Option.getD_some]
  unfold Item.Marked LooksFinished
  rw [hget]
  cases hfin : i.finished with
  | true => exact ⟨fun _ => .inl rfl, fun _ => hlies.marked hfin⟩
  | false =>
    have herased : s.flash (nth c s.oldest n) (markerOff c i.stored.2) = c.eraseValue :=
      hlies.unmarked hfin
    unfold Fcb.Marked
    rw [herased]
    constructor
    · rintro (hcrc | hfix)
      · exact .inr (.inl hcrc.symm)
      · exact .inr (.inr hfix)
    · rintro (hf | hcrc | hfix)
      · simp at hf
      · exact .inl hcrc.symm
      · exact .inr hfix

theorem visits_iff (h : Layout c s items k first) (dataOff dataLen : ℕ) :
    Visits c s ⟨none, 0, dataOff, dataLen⟩ ((items.filter fun i => i.finished).map Item.entry) ↔
    ∀ i ∈ items, i.finished = false → ¬ LooksFinished c s.flash i := by
  have hvisits := h.visits dataOff dataLen
  constructor
  · intro hfin i hi hopen hlooks
    have hmem : i.entry ∈ (items.filter fun i => i.Marked c s.flash).map Item.entry :=
      mem_map_of_mem (mem_filter.2 ⟨hi, by simpa using (h.marked_iff hi).2 (.inr hlooks)⟩)
    rw [hvisits.unique hfin] at hmem
    obtain ⟨j, hj, heq⟩ := mem_map.1 hmem
    obtain ⟨hj, hjfin⟩ := mem_filter.1 hj
    rw [h.eq_of_entry_eq hj hi heq, hopen] at hjfin
    simp at hjfin
  · intro hnone
    have hfilter : items.filter (fun i => i.Marked c s.flash) = items.filter fun i => i.finished := by
      refine filter_congr fun i hi => ?_
      rw [Bool.eq_iff_iff, decide_eq_true_iff, h.marked_iff hi]
      constructor
      · rintro (hf | hlooks)
        · exact hf
        · cases hopen : i.finished with
          | true => rfl
          | false => exact absurd hlooks (hnone i hi hopen)
      · exact .inl
    rwa [hfilter] at hvisits

theorem restored_iff (h : Layout c s items k first) (hvalid : c.Valid) (hc : c.Checked) :
    ((∃ s', Fcb.init c s.flash = .ok s' ∧ Restored s s') ↔ ¬ Straddles c s.flash) ∧
    ((∃ s', Fcb.init c s.flash = .ok s' ∧ s'.activeSector = s.activeSector) →
      ¬ Straddles c s.flash) := by
  obtain ⟨s', hinit, hcases⟩ := h.init hvalid hc
  have hactive : (∃ s', Fcb.init c s.flash = .ok s' ∧ s'.activeSector = s.activeSector) →
      ¬ Straddles c s.flash := by
    rintro ⟨s'', hinit', heq⟩
    obtain rfl := Except.ok.inj (hinit.symm.trans hinit')
    obtain ⟨hns, -⟩ | ⟨-, hne, -⟩ := hcases
    · exact hns
    · exact absurd heq hne
  refine ⟨⟨fun ⟨s'', hinit', hr⟩ => hactive ⟨s'', hinit', hr.activeSector⟩, fun hns => ?_⟩, hactive⟩
  obtain ⟨-, hr⟩ | ⟨hs, -⟩ := hcases
  · exact ⟨s', hinit, hr⟩
  · exact absurd hs hns

theorem idGt_iff_age (h : Layout c s items k first) (hvalid : c.Valid) :
    (∀ a < c.sectorCnt, ∀ b < c.sectorCnt, ∀ ida idb, headerId c s.flash a = some ida →
      headerId c s.flash b = some idb →
      (idGt ida idb = true ↔ sectorsLeft c s a < sectorsLeft c s b)) ↔ ¬ Straddles c s.flash := by
  constructor
  · intro hall hs
    obtain ⟨n, hn, hid⟩ := h.exists_of_straddles hvalid hs
    have hid' : (first + (n + 1)) % 2 ^ 16 = 0x8000 := by omega
    have hgt := (hall _ (nth_lt h.pos s.oldest n) _ (nth_lt h.pos s.oldest (n + 1)) _ _
      (h.headerId_nth (by omega)) (h.headerId_nth hn)).1 (by rw [hid, hid']; decide)
    rw [h.sectorsLeft_nth (by omega), h.sectorsLeft_nth hn] at hgt
    omega
  · intro hns a ha b hb ida idb hida hidb
    obtain ⟨m, hm, rfl, rfl⟩ := h.exists_of_headerId hvalid ha hida
    obtain ⟨n, hn, rfl, rfl⟩ := h.exists_of_headerId hvalid hb hidb
    rw [idGt_iff, h.int16_id hns hm, h.int16_id hns hn, h.sectorsLeft_nth hm, h.sectorsLeft_nth hn]
    omega

end Layout

/-- If no restart finds ids on both sides of 0x7fff, a walk finds exactly the finished elements
of the sectors that were not rotated, in order, iff no unfinished one looks finished; and
`fcb_init` restores the sectors and the offset of the next element iff the ids in use are not on
both sides. -/
theorem fcb_persistent_fifo (hvalid : c.Valid) (hboot : init c (blank c) = .ok boot) {ss : Session}
    (h : Reaches (sessions c boot) (NoRestart c) es ss) :
    (∀ dataOff dataLen, Visits c ss.fcb ⟨none, 0, dataOff, dataLen⟩
        (((live es).filter fun i => i.finished).map Item.entry) ↔
      ∀ i ∈ live es, i.finished = false → ¬ LooksFinished c ss.fcb.flash i) ∧
    ((∃ s', init c ss.fcb.flash = .ok s' ∧ Restored ss.fcb s') ↔ ¬ Straddles c ss.fcb.flash) := by
  obtain ⟨hc, hinv⟩ := inv_of_reaches hvalid hboot h
  obtain ⟨k, first, hlay⟩ := hinv.layout
  exact ⟨hlay.visits_iff, (hlay.restored_iff hvalid hc).1⟩

theorem twoSectors_valid : twoSectors.Valid :=
  ⟨by decide, ⟨0, rfl⟩, fun _ _ => (by decide : 16 ≤ 32), by decide⟩

theorem twoSectors_checked : twoSectors.Checked := ⟨by decide, by decide, by decide⟩

theorem fcb_persistent_fifo_restart : ∃ es ss,
    Reaches (sessions twoSectors (booted twoSectors)) (NoRestart twoSectors) es ss ∧
    live es = [⟨⟨some 0, 8, 9, 1⟩, true⟩, ⟨⟨some 0, 11, 12, 2⟩, false⟩, ⟨⟨some 0, 15, 16, 1⟩, true⟩] ∧
    Visits twoSectors ss.fcb ⟨none, 0, 0, 0⟩ [⟨some 0, 8, 9, 1⟩, ⟨some 0, 15, 16, 1⟩] ∧
    ∃ s', init twoSectors ss.fcb.flash = .ok s' ∧ Restored ss.fcb s' := by
  obtain ⟨es, ss, hrun, hlive, hcrc, hns⟩ := Reaches.of_exec
    (sessions twoSectors (booted twoSectors)) (NoRestart twoSectors)
    [.append 1, .write 0 0 [5], .finish 0, .append 2, .write 0 0 [7], .init, .append 1,
      .write 0 0 [9], .finish 0]
    (fun es ss => live es = [⟨⟨some 0, 8, 9, 1⟩, true⟩, ⟨⟨some 0, 11, 12, 2⟩, false⟩,
        ⟨⟨some 0, 15, 16, 1⟩, true⟩] ∧
      crcOf ss.fcb.flash 0 (1, ⟨11, 12, 2⟩) ≠ 0xff ∧ ¬ Straddles twoSectors ss.fcb.flash)
    (by decide +kernel)
  obtain ⟨hwalk, hrestore⟩ := fcb_persistent_fifo twoSectors_valid
    (init_blank twoSectors_valid twoSectors_checked) hrun
  refine ⟨es, ss, hrun, hlive, ?_, hrestore.2 hns⟩
  have hvisits := (hwalk 0 0).2 ?_
  · rwa [hlive] at hvisits
  intro i hi hopen hlooks
  rw [hlive] at hi
  simp only [mem_cons, not_mem_nil, or_false] at hi
  obtain rfl | rfl | rfl := hi
  · simp at hopen
  · obtain hbad | ⟨⟨hbad, -⟩, -⟩ := hlooks
    · exact hcrc hbad
    · exact absurd hbad (by decide)
  · simp at hopen

/-- An element that was never finished is found: the CRC of its length and of the byte 188 is the
erase value. -/
theorem fcb_finds_unfinished : ∃ boot es ss, init twoSectors (blank twoSectors) = .ok boot ∧
    Reaches (sessions twoSectors boot) (fun _ _ => True) es ss ∧
    live es = [⟨⟨some 0, 8, 9, 1⟩, false⟩] ∧
    getnext twoSectors ss.fcb ⟨none, 0, 0, 0⟩ = (.ok (), ⟨some 0, 8, 9, 1⟩) := by
  obtain ⟨es, ss, hrun, hlive, hget⟩ := Reaches.of_exec (sessions twoSectors (booted twoSectors))
    (fun _ _ => True) [.append 1, .write 0 0 [188]]
    (fun es ss => live es = [⟨⟨some 0, 8, 9, 1⟩, false⟩] ∧
      getnext twoSectors ss.fcb ⟨none, 0, 0, 0⟩ = (.ok (), ⟨some 0, 8, 9, 1⟩)) (by decide +kernel)
  exact ⟨_, es, ss, init_blank twoSectors_valid twoSectors_checked, hrun, hlive, hget⟩

/-- If no restart finds ids on both sides of 0x7fff, `fcb_init` selects the oldest and the active
sector, and the comparison of ids is that of their ages, iff the ids in use are not on both
sides. -/
theorem fcb_ids_order (hvalid : c.Valid) (hboot : init c (blank c) = .ok boot) {ss : Session}
    (h : Reaches (sessions c boot) (NoRestart c) es ss) :
    ((∃ s', init c ss.fcb.flash = .ok s' ∧ s'.oldest = ss.fcb.oldest ∧
      s'.activeSector = ss.fcb.activeSector) ↔ ¬ Straddles c ss.fcb.flash) ∧
    ((∀ a < c.sectorCnt, ∀ b < c.sectorCnt, ∀ ida idb, headerId c ss.fcb.flash a = some ida →
      headerId c ss.fcb.flash b = some idb →
      (idGt ida idb = true ↔ sectorsLeft c ss.fcb a < sectorsLeft c ss.fcb b)) ↔
      ¬ Straddles c ss.fcb.flash) := by
  obtain ⟨hc, hinv⟩ := inv_of_reaches hvalid hboot h
  obtain ⟨k, first, hlay⟩ := hinv.layout
  obtain ⟨hrestored, hactive⟩ := hlay.restored_iff hvalid hc
  refine ⟨⟨fun ⟨s', hinit, _, heq⟩ => hactive ⟨s', hinit, heq⟩, fun hns => ?_⟩,
    hlay.idGt_iff_age hvalid⟩
  obtain ⟨s', hinit, hr⟩ := hrestored.2 hns
  exact ⟨s', hinit, hr.oldest, hr.activeSector⟩

theorem fcb_ids_order_two : ∃ es ss,
    Reaches (sessions twoSectors (booted twoSectors)) (NoRestart twoSectors) es ss ∧
    ss.fcb.activeId = 2 ∧ headerId twoSectors ss.fcb.flash ss.fcb.oldest = some 1 ∧
    ∃ s', init twoSectors ss.fcb.flash = .ok s' ∧ s'.oldest = ss.fcb.oldest ∧
      s'.activeSector = ss.fcb.activeSector := by
  obtain ⟨es, ss, hrun, hid, hold, hns⟩ := Reaches.of_exec (sessions twoSectors (booted twoSectors))
    (NoRestart twoSectors) [.rotate, .appendToScratch]
    (fun _ ss => ss.fcb.activeId = 2 ∧
      headerId twoSectors ss.fcb.flash ss.fcb.oldest = some 1 ∧
      ¬ Straddles twoSectors ss.fcb.flash) (by decide +kernel)
  exact ⟨es, ss, hrun, hid, hold, (fcb_ids_order twoSectors_valid
    (init_blank twoSectors_valid twoSectors_checked) hrun).1.2 hns⟩

theorem exists_rotated (n : ℕ) : ∃ es ss, Reaches (sessions twoSectors (booted twoSectors))
    (fun _ _ => True) es ss ∧ Layout twoSectors ss.fcb [] 0 n := by
  induction n with
  | zero => exact ⟨[], _, .refl, layout_booted twoSectors_valid (by decide)⟩
  | succ n ih =>
    obtain ⟨es, ss, hrun, hlay⟩ := ih
    obtain ⟨s', hrot, h'⟩ := hlay.rotate twoSectors_valid
    have hstep : (sessions twoSectors (booted twoSectors)).step ss .rotate =
        some (⟨s', ss.pending.filter fun e => e.sector ≠ some ss.fcb.oldest⟩,
          [.rotated ss.fcb.oldest]) := by
      simp [sessions, step, hrot]
    exact ⟨_, _, .snoc hrun trivial hstep, h'⟩

/-- After 0x8000 sector changes the sector with the id 0x7fff is taken for the active one. -/
theorem fcb_init_selects_older : ∃ boot es ss, init twoSectors (blank twoSectors) = .ok boot ∧
    Reaches (sessions twoSectors boot) (fun _ _ => True) es ss ∧ ss.fcb.activeId = 0x8000 ∧
    ∃ s', init twoSectors ss.fcb.flash = .ok s' ∧ s'.activeSector ≠ ss.fcb.activeSector ∧
      s'.activeId = 0x7fff := by
  obtain ⟨es, ss, hrun, hlay⟩ := exists_rotated 0x7fff
  have hnew := hlay.newSector_zero (by decide)
  obtain ⟨s₁, hopen, -, -, h₁⟩ := hlay.openSector twoSectors_valid (by decide)
  have happ : appendToScratch twoSectors ss.fcb = .ok s₁ := by
    rwa [appendToScratch, hnew]
  have hstr : Straddles twoSectors s₁.flash :=
    ⟨⟨_, nth_lt (by decide) s₁.oldest 0, h₁.headerId_nth (by decide)⟩,
      ⟨_, nth_lt (by decide) s₁.oldest 1, h₁.headerId_nth (by decide)⟩⟩
  obtain ⟨s', hinit, ⟨hns, -⟩ | ⟨-, hne, hid⟩⟩ := h₁.init twoSectors_valid twoSectors_checked
  · exact absurd hstr hns
  · refine ⟨_, es ++ [], ⟨s₁, ss.pending⟩, init_blank twoSectors_valid twoSectors_checked,
      .snoc (a := .appendToScratch) hrun trivial ?_, h₁.id_eq, s', hinit, hne, hid⟩
    simp [sessions, step, happ]

end ZephyrRtos.Fcb
