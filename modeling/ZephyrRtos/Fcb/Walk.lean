import ZephyrRtos.Fcb.Elements

namespace ZephyrRtos.Fcb

open List

variable {c : Config} {f : Flash} {s : State} {sector off : ℕ} {loc : Elem} {p : ℕ × Elem}
  {ps : List (ℕ × Elem)} {fin : Ending} {r : Except Errno Unit × Elem}

def firstOff (c : Config) : ℕ := lenInFlash c sizeofDiskArea

def Stored (c : Config) (f : Flash) (sector : ℕ) : List (ℕ × Elem) → Ending → Prop :=
  Chain c f sector (firstOff c)

def marked (c : Config) (f : Flash) (sector : ℕ) (ps : List (ℕ × Elem)) : List (ℕ × Elem) :=
  ps.filter fun p => Marked c f sector p

/-- The sectors that come after one, up to the active sector. -/
inductive Path (c : Config) (s : State) : ℕ → List ℕ → Prop
  | last : Path c s s.activeSector []
  | next {sector : ℕ} {l : List ℕ} : sector ≠ s.activeSector → Path c s (getnextSector c sector) l →
      Path c s sector (getnextSector c sector :: l)

inductive Ahead (c : Config) (s : State) : List ℕ → List (ℕ × Elem) → Prop
  | nil : Ahead c s [] []
  | cons {sector : ℕ} {l : List ℕ} {ps : List (ℕ × Elem)} {fin : Ending} {es : List (ℕ × Elem)} :
      Stored c s.flash sector ps fin → Ahead c s l es →
      Ahead c s (sector :: l) ((marked c s.flash sector ps).map (fun p => (sector, p.2)) ++ es)

def Comes (es : List (ℕ × Elem)) (r : Except Errno Unit × ℕ × Elem) : Prop :=
  match es with
  | [] => r.1 = .error .notsup
  | e :: _ => r = (.ok (), e)

theorem Yields.cases_marked (h : Yields c f sector ps fin r) :
    (∃ p l, marked c f sector ps = p :: l ∧ r = (.ok (), p.2)) ∨
    marked c f sector ps = [] ∧ ((∃ loc : Elem, fin = .free loc.elemOff ∧ r = (.error .notsup, loc)) ∨
      ∃ loc, fin = .damaged loc ∧ r = (.error .io, loc)) := by
  induction h with
  | found hmark =>
    left
    exact ⟨_, _, filter_cons_of_pos (by simpa using hmark), rfl⟩
  | skip hmark _ ih =>
    rw [marked, filter_cons_of_neg (by simpa using hmark)]
    exact ih
  | free loc => exact .inr ⟨rfl, .inl ⟨loc, rfl, rfl⟩⟩
  | damaged => exact .inr ⟨rfl, .inr ⟨_, rfl, rfl⟩⟩

theorem Chain.elemInfo_cases (loc : Elem) (h : Chain c f sector loc.elemOff ps fin) :
    (∃ p l, ps = p :: l ∧ Marked c f sector p ∧ elemInfo c f sector loc = (.ok (), p.2)) ∨
    (∃ p l, ps = p :: l ∧ ¬ Marked c f sector p ∧ elemInfo c f sector loc = (.error .badmsg, p.2) ∧
      elemAt c f sector p.2.elemOff = some p ∧ Fits c sector p.2 ∧
      Chain c f sector (behind c p.2) l fin) ∨
    ps = [] ∧ ∃ e loc', elemInfo c f sector loc = (.error e, loc') ∧ Stage.ofErrno e = .nextSector := by
  rw [elemInfo_eq]
  cases h with
  | free hat =>
    rw [hat]
    exact .inr (.inr ⟨rfl, _, _, rfl, rfl⟩)
  | damaged hat hfits =>
    rw [hat]
    simp only [if_neg hfits]
    exact .inr (.inr ⟨trivial, _, _, rfl, rfl⟩)
  | @elem _ p l _ hat hfits hrest =>
    have hagain : elemAt c f sector p.2.elemOff = some p := by rw [elemOff_of_elemAt hat, hat]
    rw [hat]
    simp only [if_pos hfits]
    by_cases hmark : Marked c f sector p
    · rw [if_pos hmark]
      exact .inl ⟨p, l, rfl, hmark, rfl⟩
    · rw [if_neg hmark]
      exact .inr (.inl ⟨p, l, rfl, hmark, rfl, hagain, hfits, hrest⟩)

theorem Stored.enter (h : Stored c s.flash sector ps fin) (loc : Elem) (fuel : ℕ) :
    let r := match elemInfo c s.flash sector { loc with elemOff := lenInFlash c sizeofDiskArea } with
      | (.ok _, loc) => (.ok (), sector, loc)
      | (.error e, loc) => getnextLoop c s (fuel + 1) (.ofErrno e) sector loc
    (∃ p l, marked c s.flash sector ps = p :: l ∧ r = (.ok (), sector, p.2)) ∨
    marked c s.flash sector ps = [] ∧
      ∃ n loc', fuel ≤ n ∧ r = getnextLoop c s n .nextSector sector loc' := by
  intro r
  obtain ⟨p, -, rfl, hmark, hinfo⟩ | ⟨p, l, rfl, hmark, hinfo, hat, hfits, hchain⟩ |
      ⟨rfl, e, loc', hinfo, hbad⟩ :=
    Chain.elemInfo_cases { loc with elemOff := lenInFlash c sizeofDiskArea } h
  · refine .inl ⟨p, _, filter_cons_of_pos (by simpa using hmark), ?_⟩
    simp [r, hinfo]
  · have hr : r = getnextLoop c s (fuel + 1) .inSector sector p.2 := by
      simp only [r, hinfo]
      rfl
    rw [hr, getnextLoop, marked, filter_cons_of_neg (by simpa using hmark)]
    obtain ⟨q, u, hq, hy⟩ | ⟨hnil, ⟨loc', -, hy⟩ | ⟨loc', -, hy⟩⟩ :=
      (inSector_yields hat hfits hchain).cases_marked
    · exact .inl ⟨q, u, hq, by rw [hy]⟩
    · exact .inr ⟨hnil, fuel, loc', Nat.le_refl _, by rw [hy]; rfl⟩
    · exact .inr ⟨hnil, fuel, loc', Nat.le_refl _, by rw [hy]; rfl⟩
  · refine .inr ⟨rfl, fuel + 1, loc', Nat.le_succ _, ?_⟩
    simp [r, hinfo, hbad]

theorem loop_nextSector (hpath : Path c s sector l) (hahead : Ahead c s l es)
    (hfuel : 2 * l.length + 1 ≤ fuel) :
    Comes es (getnextLoop c s fuel .nextSector sector loc) := by
  induction hahead generalizing sector fuel loc with
  | nil =>
    obtain ⟨-, rfl⟩ : ∃ n, fuel = n + 1 := ⟨fuel - 1, by omega⟩
    cases hpath
    rw [getnextLoop, if_pos rfl]
    rfl
  | @cons sector' l ps fin es hstored hrest ih =>
    obtain ⟨fuel, rfl⟩ : ∃ n, fuel = n + 2 := ⟨fuel - 2, by simp at hfuel; omega⟩
    rw [length_cons] at hfuel
    cases hpath with
    | next hne hpath =>
      rw [getnextLoop, if_neg hne]
      obtain ⟨p, t, hp, hr⟩ | ⟨hnil, n, loc', hn, hr⟩ := hstored.enter loc fuel
      · rwa [hp]
      · rw [hnil]
        exact (congrArg (Comes es) hr).mpr (ih hpath (by omega))

theorem exists_path (hactive : s.activeSector < c.sectorCnt) (hsector : sector < c.sectorCnt) :
    ∃ l, Path c s sector l ∧ l.length < c.sectorCnt := by
  -- the sectors from here to the active one, round the ring
  have hup : ∀ d sector, sector + d = s.activeSector → ∃ l, Path c s sector l ∧ l.length = d := by
    intro d
    induction d with
    | zero =>
      rintro sector rfl
      exact ⟨[], .last, rfl⟩
    | succ d ih =>
      intro sector heq
      obtain ⟨l, hl, hlen⟩ := ih (sector + 1) (by omega)
      have hnext : getnextSector c sector = sector + 1 := if_neg (by omega)
      exact ⟨_, .next (by omega) (hnext ▸ hl), by rw [length_cons, hlen]⟩
  by_cases hle : sector ≤ s.activeSector
  · obtain ⟨l, hl, hlen⟩ := hup (s.activeSector - sector) sector (by omega)
    exact ⟨l, hl, by omega⟩
  have hwrap : ∀ d sector, s.activeSector < sector → sector + d + 1 = c.sectorCnt →
      ∃ l, Path c s sector l ∧ l.length = d + 1 + s.activeSector := by
    intro d
    induction d with
    | zero =>
      intro sector hlt heq
      obtain ⟨l, hl, hlen⟩ := hup s.activeSector 0 (by omega)
      have hnext : getnextSector c sector = 0 := if_pos (by omega)
      exact ⟨_, .next (by omega) (hnext ▸ hl), by rw [length_cons]; omega⟩
    | succ d ih =>
      intro sector hlt heq
      obtain ⟨l, hl, hlen⟩ := ih (sector + 1) (by omega) (by omega)
      have hnext : getnextSector c sector = sector + 1 := if_neg (by omega)
      exact ⟨_, .next (by omega) (hnext ▸ hl), by rw [length_cons]; omega⟩
  obtain ⟨l, hl, hlen⟩ := hwrap (c.sectorCnt - sector - 1) sector (by omega) (by omega)
  exact ⟨l, hl, by omega⟩

theorem exists_ahead (l : List ℕ) : ∃ es, Ahead c s l es := by
  induction l with
  | nil => exact ⟨[], .nil⟩
  | cons sector l ih =>
    obtain ⟨es, hes⟩ := ih
    obtain ⟨ps, fin, h⟩ := exists_chain c s.flash sector (firstOff c)
    exact ⟨_, .cons h hes⟩

/-- What `fcb_getnext` comes to that has these elements ahead. -/
def Gets (es : List (ℕ × Elem)) (r : Except Errno Unit × Entry) : Prop :=
  match es with
  | [] => r.1 = .error .notsup
  | e :: _ => r = (.ok (), ⟨some e.1, e.2⟩)

theorem Comes.gets {es : List (ℕ × Elem)} {r : Except Errno Unit × ℕ × Elem} (h : Comes es r) :
    Gets es (r.1, ⟨some r.2.1, r.2.2⟩) := by
  cases es with
  | nil => exact h
  | cons e es => rw [show r = _ from h]; rfl

variable {entry : Entry} {l : List ℕ} {es : List (ℕ × Elem)}

theorem getnext_start (entry : Entry) (hoff : entry.elem.elemOff = 0) (hstored : Stored c s.flash sector ps fin)
    (hsector : entry.sector.getD s.oldest = sector) (hpath : Path c s sector l)
    (hlen : l.length < c.sectorCnt) (hahead : Ahead c s l es) :
    Gets ((marked c s.flash sector ps).map (fun p => (sector, p.2)) ++ es) (getnext c s entry) := by
  unfold getnext
  simp only [if_pos hoff, hsector]
  obtain ⟨p, t, hp, hr⟩ | ⟨hnil, n, loc', hn, hr⟩ := hstored.enter entry.elem (2 * c.sectorCnt)
  · rw [hp]
    exact Comes.gets hr
  · rw [hnil]
    exact Comes.gets ((congrArg (Comes es) hr).mpr (loop_nextSector hpath hahead (by omega)))

/-- Without an element with an end marker behind it, the search goes on to the next sectors,
unless it comes to one that goes past the end of its sector. -/
theorem getnext_elem (hoff : entry.elem.elemOff ≠ 0) (hsector : entry.sector.getD s.oldest = sector)
    (hat : elemAt c s.flash sector entry.elem.elemOff = some p) (hfits : Fits c sector p.2)
    (hchain : Chain c s.flash sector (behind c p.2) ps fin) (hpath : Path c s sector l)
    (hlen : l.length < c.sectorCnt) (hahead : Ahead c s l es) :
    (∃ q u, marked c s.flash sector ps = q :: u ∧
      getnext c s entry = (.ok (), ⟨some sector, q.2⟩)) ∨
    marked c s.flash sector ps = [] ∧ (∃ off, fin = .free off) ∧ Gets es (getnext c s entry) ∨
    marked c s.flash sector ps = [] ∧ ∃ loc, fin = .damaged loc ∧
      getnext c s entry = (.ok (), ⟨some sector, loc⟩) := by
  unfold getnext
  simp only [if_neg hoff, hsector]
  obtain ⟨q, u, hq, hy⟩ | ⟨hnil, ⟨loc', hfin, hy⟩ | ⟨loc', hfin, hy⟩⟩ :=
    (inSector_yields hat hfits hchain).cases_marked
  · rw [hy]
    exact .inl ⟨q, u, hq, rfl⟩
  · rw [hy]
    exact .inr (.inl ⟨hnil, ⟨_, hfin⟩, Comes.gets (loop_nextSector hpath hahead (by omega))⟩)
  · rw [hy]
    exact .inr (.inr ⟨hnil, loc', hfin, rfl⟩)

theorem getnext_free (hoff : entry.elem.elemOff ≠ 0) (hsector : entry.sector.getD s.oldest = sector)
    (hat : elemAt c s.flash sector entry.elem.elemOff = none) (hpath : Path c s sector l)
    (hlen : l.length < c.sectorCnt) (hahead : Ahead c s l es) : Gets es (getnext c s entry) := by
  unfold getnext
  simp only [if_neg hoff, hsector, inSector_none hat]
  exact Comes.gets (loop_nextSector hpath hahead (by omega))

def sectorsLeft (c : Config) (s : State) (sector : ℕ) : ℕ :=
  if sector ≤ s.activeSector then s.activeSector - sector
  else c.sectorCnt - sector + s.activeSector

theorem Path.length_eq (h : Path c s sector l) (hactive : s.activeSector < c.sectorCnt)
    (hsector : sector < c.sectorCnt) : l.length = sectorsLeft c s sector := by
  induction h with
  | last => rw [sectorsLeft, if_pos (Nat.le_refl _), Nat.sub_self, length_nil]
  | @next sector l hne _ ih =>
    have hlt : getnextSector c sector < c.sectorCnt := by
      unfold getnextSector
      split <;> omega
    have hih := ih hlt
    rw [length_cons, hih]
    unfold sectorsLeft getnextSector
    split <;> split <;> split <;> omega

/-- The location is an element with its end marker. -/
def Designates (c : Config) (s : State) (entry : Entry) : Prop :=
  ∃ sector cnt, entry.sector = some sector ∧
    elemAt c s.flash sector entry.elem.elemOff = some (cnt, entry.elem) ∧
    Fits c sector entry.elem ∧ Marked c s.flash sector (cnt, entry.elem)

def Later (c : Config) (s : State) (a b : Entry) : Prop :=
  sectorsLeft c s (b.sector.getD s.oldest) < sectorsLeft c s (a.sector.getD s.oldest) ∨
  a.sector.getD s.oldest = b.sector.getD s.oldest ∧ a.elem.elemOff < b.elem.elemOff

/-- The elements from a location on come, with no end marker on the way, to one that goes past the
end of the sector. -/
def RunsPast (c : Config) (s : State) (entry : Entry) : Prop :=
  entry.elem.elemOff ≠ 0 ∧
  ∃ p, elemAt c s.flash (entry.sector.getD s.oldest) entry.elem.elemOff = some p ∧
    (¬ Fits c (entry.sector.getD s.oldest) p.2 ∨ Fits c (entry.sector.getD s.oldest) p.2 ∧
      ∃ ps loc, Chain c s.flash (entry.sector.getD s.oldest) (behind c p.2) ps (.damaged loc) ∧
        marked c s.flash (entry.sector.getD s.oldest) ps = [])

theorem Chain.designates (h : Chain c s.flash sector off ps fin)
    (hp : p ∈ marked c s.flash sector ps) : Designates c s ⟨some sector, p.2⟩ ∧ off ≤ p.2.elemOff := by
  obtain ⟨hmem, hmark⟩ := mem_filter.1 hp
  obtain ⟨l, r, rfl⟩ := append_of_mem hmem
  obtain ⟨hat, hfits, -⟩ := h.split
  exact ⟨⟨sector, p.1, rfl, hat, hfits, by simpa using hmark⟩, h.le_elemOff p hmem⟩

theorem Ahead.designates (h : Ahead c s l es) (hpath : Path c s sector l)
    (hactive : s.activeSector < c.sectorCnt) (hsector : sector < c.sectorCnt) (he : e ∈ es) :
    Designates c s ⟨some e.1, e.2⟩ ∧ sectorsLeft c s e.1 < sectorsLeft c s sector := by
  induction h generalizing sector with
  | nil => exact absurd he not_mem_nil
  | @cons sector' l ps fin es hstored _ ih =>
    have hlen := hpath.length_eq hactive hsector
    rw [length_cons] at hlen
    cases hpath with
    | next hne hpath =>
      have hlt : getnextSector c sector < c.sectorCnt := by
        unfold getnextSector
        split <;> omega
      have hlen' := hpath.length_eq hactive hlt
      obtain he | he := mem_append.1 he
      · obtain ⟨p, hp, rfl⟩ := mem_map.1 he
        exact ⟨(Chain.designates hstored hp).1, by dsimp only; omega⟩
      · obtain ⟨hdes, hleft⟩ := ih hpath hlt he
        exact ⟨hdes, by omega⟩

theorem firstOff_pos : 0 < firstOff c := by
  have hle := le_lenInFlash (c := c) sizeofDiskArea
  unfold firstOff
  unfold sizeofDiskArea at *
  omega

theorem elemAt_damaged (h : Chain c f sector off ps (.damaged loc)) :
    ∃ p, elemAt c f sector loc.elemOff = some p ∧ p.2 = loc ∧ ¬ Fits c sector loc := by
  generalize hfin : Ending.damaged loc = fin at h
  induction h with
  | free _ => simp at hfin
  | damaged hat hfits =>
    obtain rfl := Ending.damaged.inj hfin
    exact ⟨_, by rw [elemOff_of_elemAt hat, hat], rfl, hfits⟩
  | elem _ _ _ ih => exact ih hfin

theorem getnext_sound_iff (hactive : s.activeSector < c.sectorCnt)
    (hsector : entry.sector.getD s.oldest < c.sectorCnt) :
    ((getnext c s entry).1 = .ok () →
      Designates c s (getnext c s entry).2 ∧ Later c s entry (getnext c s entry).2) ↔
    ¬ RunsPast c s entry := by
  obtain ⟨l, hpath, hlen⟩ := exists_path hactive hsector
  obtain ⟨es, hahead⟩ := exists_ahead l
  -- an element in one of the next sectors
  have hes : Gets es (getnext c s entry) → (getnext c s entry).1 = .ok () →
      Designates c s (getnext c s entry).2 ∧ Later c s entry (getnext c s entry).2 := by
    intro hgets hok
    cases es with
    | nil => exact absurd (hok.symm.trans hgets) nofun
    | cons e es =>
      rw [show getnext c s entry = _ from hgets]
      obtain ⟨hdes, hleft⟩ := hahead.designates hpath hactive hsector mem_cons_self
      exact ⟨hdes, .inl hleft⟩
  by_cases hoff : entry.elem.elemOff = 0
  · refine ⟨fun _ hpast => hpast.1 hoff, fun _ => ?_⟩
    obtain ⟨ps, fin, hstored⟩ := exists_chain c s.flash (entry.sector.getD s.oldest)
      (firstOff c)
    have hgets := getnext_start entry hoff hstored rfl hpath hlen hahead
    cases hm : marked c s.flash (entry.sector.getD s.oldest) ps with
    | nil =>
      rw [hm] at hgets
      exact hes hgets
    | cons p ps' =>
      rw [hm] at hgets
      intro
      rw [show getnext c s entry = _ from hgets]
      obtain ⟨hdes, hle⟩ := Chain.designates hstored (by rw [hm]; exact mem_cons_self)
      have hpos := firstOff_pos (c := c)
      exact ⟨hdes, .inr ⟨rfl, by dsimp only; omega⟩⟩
  · cases hat : elemAt c s.flash (entry.sector.getD s.oldest) entry.elem.elemOff with
    | none =>
      refine ⟨fun _ hpast => ?_, fun _ => hes (getnext_free hoff rfl hat hpath hlen hahead)⟩
      obtain ⟨-, p, hp, -⟩ := hpast
      exact absurd (hat.symm.trans hp) nofun
    | some p =>
      by_cases hfits : Fits c (entry.sector.getD s.oldest) p.2
      case neg =>
        have hget : getnext c s entry = (.ok (), ⟨some (entry.sector.getD s.oldest), p.2⟩) := by
          simp [getnext, if_neg hoff, inSector_damaged hat hfits]
        refine ⟨fun h => ?_, fun h => absurd ⟨hoff, p, hat, .inl hfits⟩ h⟩
        rw [hget] at h
        obtain ⟨⟨sector, -, hs, -, hfits', -⟩, -⟩ := h rfl
        exact absurd (Option.some.inj hs ▸ hfits') hfits
      case pos =>
        obtain ⟨ps, fin, hchain⟩ := exists_chain c s.flash (entry.sector.getD s.oldest)
          (behind c p.2)
        have hbehind := lt_behind hat
        have hnot : (∀ loc, fin ≠ .damaged loc) ∨
            marked c s.flash (entry.sector.getD s.oldest) ps ≠ [] → ¬ RunsPast c s entry := by
          rintro hor ⟨-, p', hp', hpast⟩
          obtain rfl := Option.some.inj (hat.symm.trans hp')
          obtain hf | ⟨-, ps', loc, hc', hm'⟩ := hpast
          · exact hf hfits
          · obtain ⟨rfl, rfl⟩ := hchain.unique hc'
            obtain h | h := hor
            · exact h loc rfl
            · exact h hm'
        obtain ⟨q, u, hq, hget⟩ | ⟨-, ⟨off', rfl⟩, hgets⟩ | ⟨hnil, loc, rfl, hget⟩ :=
          getnext_elem hoff rfl hat hfits hchain hpath hlen hahead
        · refine ⟨fun _ => hnot (.inr (by rw [hq]; exact cons_ne_nil _ _)), fun _ _ => ?_⟩
          rw [hget]
          obtain ⟨hdes, hle⟩ := hchain.designates (by rw [hq]; exact mem_cons_self)
          exact ⟨hdes, .inr ⟨rfl, by dsimp only; omega⟩⟩
        · exact ⟨fun _ => hnot (.inl nofun), fun _ => hes hgets⟩
        · obtain ⟨p', -, rfl, hfits'⟩ := elemAt_damaged hchain
          refine ⟨fun h => ?_, fun h => absurd ⟨hoff, p, hat, .inr ⟨hfits, ps, _, hchain, hnil⟩⟩ h⟩
          rw [hget] at h
          obtain ⟨⟨sector, -, hs, -, hf, -⟩, -⟩ := h rfl
          exact absurd (Option.some.inj hs ▸ hf) hfits'

/-- The locations that repeated calls of `fcb_getnext` give, up to the one that returns
`-ENOTSUP`. -/
inductive Visits (c : Config) (s : State) : Entry → List Entry → Prop
  | stop {entry : Entry} : (getnext c s entry).1 = .error .notsup → Visits c s entry []
  | next {entry entry' : Entry} {l : List Entry} : getnext c s entry = (.ok (), entry') →
      Visits c s entry' l → Visits c s entry (entry' :: l)

abbrev Entry.of (e : ℕ × Elem) : Entry := ⟨some e.1, e.2⟩

/-- The elements of a sector do not end past the sector with one that has its end marker before. -/
def Undamaged (c : Config) (s : State) (sector : ℕ) : Prop :=
  ∀ ps loc, Stored c s.flash sector ps (.damaged loc) → marked c s.flash sector ps = []

theorem visits_of_gets (hgets : Gets es (getnext c s entry))
    (hall : ∀ l e r, es = l ++ e :: r → Gets r (getnext c s (.of e))) :
    Visits c s entry (es.map Entry.of) := by
  induction es generalizing entry with
  | nil => exact .stop hgets
  | cons e es ih =>
    refine .next hgets (ih (hall [] e es rfl) fun l e' r heq => ?_)
    exact hall (e :: l) e' r (by rw [heq]; rfl)

theorem exists_of_marked (h : marked c f sector ps = u ++ p :: v) :
    ∃ l r, ps = l ++ p :: r ∧ marked c f sector r = v := by
  obtain ⟨l, r, rfl, -, hr⟩ := filter_eq_append_iff.1 h
  obtain ⟨l', r', rfl, -, -, hv⟩ := filter_eq_cons_iff.1 hr
  exact ⟨l ++ l', r', by rw [append_assoc], hv⟩

section

variable (h : Stored c s.flash sector ps fin) (hsound : Undamaged c s sector)
include h hsound

theorem Chain.ending_of_undamaged (hne : marked c s.flash sector ps ≠ []) :
    ∃ off, fin = .free off := by
  cases fin with
  | free off => exact ⟨off, rfl⟩
  | damaged loc => exact absurd (hsound ps loc h) hne

theorem Stored.gets (hpath : Path c s sector l) (hlen : l.length < c.sectorCnt)
    (hahead : Ahead c s l es)
    (heq : (marked c s.flash sector ps).map (fun p => (sector, p.2)) = u ++ e :: v) :
    Gets (v ++ es) (getnext c s (.of e)) ∧ ¬ RunsPast c s (.of e) := by
  obtain ⟨u', w, hm, -, hw⟩ := map_eq_append_iff.1 heq
  obtain ⟨p, v', rfl, rfl, rfl⟩ := map_eq_cons_iff.1 hw
  obtain ⟨pre, post, rfl, hpost⟩ := exists_of_marked hm
  obtain ⟨off, rfl⟩ := Chain.ending_of_undamaged h hsound (by rw [hm]; simp)
  have hpos := firstOff_pos (c := c)
  have hle := Chain.le_elemOff h p (by simp)
  obtain ⟨hat, hfits, hchain⟩ := Chain.split h
  have hoff : (Entry.of (sector, p.2)).elem.elemOff ≠ 0 := by
    show p.2.elemOff ≠ 0
    omega
  have hsector : (Entry.of (sector, p.2)).sector.getD s.oldest = sector := rfl
  rw [← hpost]
  refine ⟨?_, ?_⟩
  · obtain ⟨q, t, hq, hget⟩ | ⟨hnil, -, hgets⟩ | ⟨-, loc, hfin, -⟩ :=
      getnext_elem hoff hsector hat hfits hchain hpath hlen hahead
    · rw [hget, hq]
      rfl
    · rwa [hnil]
    · simp at hfin
  · rintro ⟨-, p', hp', hpast⟩
    obtain rfl := Option.some.inj (hat.symm.trans hp')
    obtain hf | ⟨-, ps', loc, hc', -⟩ := hpast
    · exact hf hfits
    · exact absurd (hchain.unique hc').2 nofun

end

theorem Ahead.gets (h : Ahead c s l es) (hpath : Path c s sector l) (hlen : l.length < c.sectorCnt)
    (hsound : ∀ sector ∈ l, Undamaged c s sector) (heq : es = u ++ e :: v) :
    Gets v (getnext c s (.of e)) ∧ ¬ RunsPast c s (.of e) := by
  induction h generalizing sector u with
  | nil => simp at heq
  | @cons sector' l ps fin es hstored hrest ih =>
    cases hpath with
    | next _ hpath =>
      rw [length_cons] at hlen
      obtain ⟨w, -, hes⟩ | ⟨w, hw, hes⟩ := append_eq_append_iff.1 heq
      · exact ih hpath (by omega) (fun t ht => hsound t (mem_cons_of_mem _ ht)) hes
      · cases w with
        | nil =>
          exact ih hpath (by omega) (fun t ht => hsound t (mem_cons_of_mem _ ht))
            (u := []) hes.symm
        | cons e' w =>
          obtain ⟨rfl, rfl⟩ := cons.inj hes
          exact hstored.gets (hsound _ mem_cons_self) hpath (by omega) hrest hw

theorem Visits.ending (h : Visits c s (.of (sector, p.2)) visited)
    (hdes : ∀ e ∈ visited, Designates c s e) (hoff : p.2.elemOff ≠ 0)
    (hat : elemAt c s.flash sector p.2.elemOff = some p) (hfits : Fits c sector p.2)
    (hchain : Chain c s.flash sector (behind c p.2) ps fin) (hpath : Path c s sector l)
    (hlen : l.length < c.sectorCnt) (hahead : Ahead c s l es) :
    (∃ off, fin = .free off) ∧ ∃ entry rest, Visits c s entry rest ∧
      (∀ e ∈ rest, Designates c s e) ∧ Gets es (getnext c s entry) := by
  have hsector : (Entry.of (sector, p.2)).sector.getD s.oldest = sector := rfl
  -- the elements with an end marker behind this one are the next locations of the walk
  induction hn : ps.length using Nat.strongRecOn generalizing p ps visited with
  | ind n ih =>
    obtain ⟨q, t, hq, hget⟩ | ⟨-, hfree, hgets⟩ | ⟨-, loc, rfl, hget⟩ :=
      getnext_elem hoff hsector hat hfits hchain hpath hlen hahead
    · obtain ⟨l', r, rfl, -⟩ := exists_of_marked (u := []) hq
      obtain ⟨hat', hfits', hchain'⟩ := hchain.split
      have hle := hchain.le_elemOff q (by simp)
      have hbehind := lt_behind hat
      cases h with
      | stop hstop => exact absurd (hstop.symm.trans (congrArg Prod.fst hget)) nofun
      | next hnext hrest =>
        obtain rfl := (Prod.mk.inj (hnext.symm.trans hget)).2
        refine ih r.length ?_ hrest (fun e he => hdes e (mem_cons_of_mem _ he)) (by omega) hat'
          hfits' hchain' rfl rfl
        rw [← hn, length_append, length_cons]
        omega
    · exact ⟨hfree, _, _, h, hdes, hgets⟩
    · cases h with
      | stop hstop => exact absurd (hstop.symm.trans (congrArg Prod.fst hget)) nofun
      | next hnext _ =>
        obtain rfl := (Prod.mk.inj (hnext.symm.trans hget)).2
        obtain ⟨p', -, rfl, hfits'⟩ := elemAt_damaged hchain
        obtain ⟨sector', -, hs, -, hf, -⟩ := hdes _ mem_cons_self
        exact absurd (Option.some.inj hs ▸ hf) hfits'

section

variable (h : Visits c s entry visited) (hdes : ∀ e ∈ visited, Designates c s e)
  (hstored : Stored c s.flash sector ps fin) (hpath : Path c s sector l)
  (hlen : l.length < c.sectorCnt) (hahead : Ahead c s l es)
  (hgets : Gets ((marked c s.flash sector ps).map (fun p => (sector, p.2)) ++ es) (getnext c s entry))
include h hdes hstored hpath hlen hahead hgets

theorem Visits.leave :
    Undamaged c s sector ∧ ∃ entry' rest, Visits c s entry' rest ∧
      (∀ e ∈ rest, Designates c s e) ∧ Gets es (getnext c s entry') := by
  cases hm : marked c s.flash sector ps with
  | nil =>
    rw [hm] at hgets
    refine ⟨fun ps' loc hdam => ?_, entry, visited, h, hdes, hgets⟩
    obtain ⟨rfl, -⟩ := Chain.unique hstored hdam
    exact hm
  | cons p v =>
    rw [hm] at hgets
    obtain ⟨l', r, rfl, -⟩ := exists_of_marked (u := []) hm
    obtain ⟨hat, hfits, hchain⟩ := Chain.split hstored
    have hle := Chain.le_elemOff hstored p (by simp)
    have hpos := firstOff_pos (c := c)
    cases h with
    | stop hstop => exact absurd (hstop.symm.trans (congrArg Prod.fst hgets)) nofun
    | next hnext hrest =>
      obtain rfl := (Prod.mk.inj (hnext.symm.trans hgets)).2
      obtain ⟨⟨off, rfl⟩, hgo⟩ := hrest.ending (fun e he => hdes e (mem_cons_of_mem _ he))
        (by omega) hat hfits hchain hpath hlen hahead
      exact ⟨fun ps' loc hdam => absurd (Chain.unique hstored hdam).2 nofun, hgo⟩

theorem Visits.undamaged : ∀ t ∈ sector :: l, Undamaged c s t := by
  obtain ⟨hsound, entry', rest, h', hdes', hgets'⟩ := h.leave hdes hstored hpath hlen hahead hgets
  rw [forall_mem_cons]
  refine ⟨hsound, fun t ht => ?_⟩
  induction hahead generalizing sector ps fin entry visited entry' rest with
  | nil => cases ht
  | @cons sector' l ps' fin' es hstored' hrest ih =>
    cases hpath with
    | next _ hpath =>
      rw [length_cons] at hlen
      obtain ⟨hsound', entry'', rest', h'', hdes'', hgets''⟩ :=
        h'.leave hdes' hstored' hpath (by omega) hrest hgets'
      obtain rfl | ht := mem_cons.1 ht
      · exact hsound'
      · exact ih h' hdes' hstored' hpath (by omega) hgets' hsound' entry'' rest' h'' hdes'' hgets'' ht

end

theorem Visits.sound (h : Visits c s entry visited) (hactive : s.activeSector < c.sectorCnt)
    (hsector : entry.sector.getD s.oldest < c.sectorCnt)
    (hin : ∀ e ∈ visited, e.sector.getD s.oldest < c.sectorCnt)
    (hpast : ∀ e ∈ entry :: visited, ¬ RunsPast c s e) :
    (∀ e ∈ visited, Designates c s e) ∧ (entry :: visited).IsChain (Later c s) := by
  induction h with
  | stop _ => exact ⟨nofun, .singleton _⟩
  | @next entry entry' l hnext _ ih =>
    obtain ⟨hdes, hchain⟩ := ih (hin _ mem_cons_self)
      (fun e he => hin e (mem_cons_of_mem _ he))
      (fun e he => hpast e (mem_cons_of_mem _ he))
    have hone := (getnext_sound_iff hactive hsector).2 (hpast entry mem_cons_self)
    rw [hnext] at hone
    obtain ⟨hd, hlater⟩ := hone rfl
    refine ⟨fun e he => ?_, isChain_cons_cons.2 ⟨hlater, hchain⟩⟩
    obtain rfl | he := mem_cons.1 he
    · exact hd
    · exact hdes e he

theorem Path.lt_sectorCnt (h : Path c s sector l) (hcnt : 0 < c.sectorCnt) :
    ∀ t ∈ l, t < c.sectorCnt := by
  induction h with
  | last => exact nofun
  | next _ _ ih =>
    intro t ht
    obtain rfl | ht := mem_cons.1 ht
    · unfold getnextSector
      split <;> omega
    · exact ih t ht

theorem Ahead.mem_sector (h : Ahead c s l es) (he : e ∈ es) : e.1 ∈ l := by
  induction h with
  | nil => cases he
  | cons _ _ ih =>
    obtain he | he := mem_append.1 he
    · obtain ⟨-, -, rfl⟩ := mem_map.1 he
      exact mem_cons_self
    · exact mem_cons_of_mem _ (ih he)

theorem Stored.gets_all (h : Stored c s.flash sector ps fin) (hpath : Path c s sector l)
    (hlen : l.length < c.sectorCnt) (hahead : Ahead c s l es)
    (hsound : ∀ t ∈ sector :: l, Undamaged c s t)
    (heq : (marked c s.flash sector ps).map (fun p => (sector, p.2)) ++ es = u ++ e :: v) :
    Gets v (getnext c s (.of e)) ∧ ¬ RunsPast c s (.of e) := by
  have hrest : ∀ w, es = w ++ e :: v → Gets v (getnext c s (.of e)) ∧ ¬ RunsPast c s (.of e) :=
    fun w hw => hahead.gets hpath hlen (fun t ht => hsound t (mem_cons_of_mem _ ht)) hw
  obtain ⟨w, -, hes⟩ | ⟨w, hw, hes⟩ := append_eq_append_iff.1 heq
  · exact hrest w hes
  · cases w with
    | nil => exact hrest [] hes.symm
    | cons e' w =>
      obtain ⟨rfl, rfl⟩ := cons.inj hes
      exact h.gets (hsound _ mem_cons_self) hpath hlen hahead hw

theorem Stored.visits (h : Stored c s.flash s.oldest ps fin) (hpath : Path c s s.oldest l)
    (hlen : l.length < c.sectorCnt) (hahead : Ahead c s l es)
    (hsound : ∀ t ∈ s.oldest :: l, Undamaged c s t) (dataOff dataLen : ℕ) :
    Visits c s ⟨none, 0, dataOff, dataLen⟩
      (((marked c s.flash s.oldest ps).map (fun p => (s.oldest, p.2)) ++ es).map Entry.of) :=
  visits_of_gets (getnext_start ⟨none, 0, dataOff, dataLen⟩ rfl h rfl hpath hlen hahead)
    fun _ _ _ heq => (h.gets_all hpath hlen hahead hsound heq).1

/-- `fcb_getnext` returns 0 only with a later element that has its end marker, iff the elements
from the location on do not come to one that goes past the end of its sector. And repeated calls
give ever later such elements until one returns `-ENOTSUP`, iff no sector ends so behind an
element with its end marker. -/
theorem fcb_getnext_walks (holdest : s.oldest < c.sectorCnt) (hactive : s.activeSector < c.sectorCnt) :
    (∀ entry : Entry, entry.sector.getD s.oldest < c.sectorCnt →
      (((getnext c s entry).1 = .ok () →
        Designates c s (getnext c s entry).2 ∧ Later c s entry (getnext c s entry).2) ↔
      ¬ RunsPast c s entry)) ∧
    ∀ dataOff dataLen l, Path c s s.oldest l →
      ((∃ visited, Visits c s ⟨none, 0, dataOff, dataLen⟩ visited ∧
        (∀ e ∈ visited, Designates c s e) ∧
        (⟨none, 0, dataOff, dataLen⟩ :: visited).IsChain (Later c s)) ↔
      ∀ t ∈ s.oldest :: l, Undamaged c s t) := by
  refine ⟨fun entry hsector => getnext_sound_iff hactive hsector, fun dataOff dataLen l hpath => ?_⟩
  have hlen : l.length < c.sectorCnt := by
    rw [hpath.length_eq hactive holdest]
    unfold sectorsLeft
    split <;> omega
  obtain ⟨es, hahead⟩ := exists_ahead l
  obtain ⟨ps, fin, hstored⟩ := exists_chain c s.flash s.oldest (firstOff c)
  have hgets := getnext_start ⟨none, 0, dataOff, dataLen⟩ rfl hstored rfl hpath hlen hahead
  constructor
  · rintro ⟨visited, hvisits, hdes, -⟩
    exact hvisits.undamaged hdes hstored hpath hlen hahead hgets
  intro hsound
  have hvisits := Stored.visits hstored hpath hlen hahead hsound dataOff dataLen
  refine ⟨_, hvisits, hvisits.sound hactive holdest ?_ ?_⟩
  · intro entry hentry
    obtain ⟨e, he, rfl⟩ := mem_map.1 hentry
    obtain he | he := mem_append.1 he
    · obtain ⟨-, -, rfl⟩ := mem_map.1 he
      exact holdest
    · exact hpath.lt_sectorCnt (by omega) _ (hahead.mem_sector he)
  intro entry hentry
  obtain rfl | hentry := mem_cons.1 hentry
  · exact fun hpast => hpast.1 rfl
  · obtain ⟨e, he, rfl⟩ := mem_map.1 hentry
    obtain ⟨u, v, heq⟩ := append_of_mem he
    exact (Stored.gets_all hstored hpath hlen hahead hsound heq).2

def twoSectors : Config := ⟨0xfcb0fcb0, 1, 2, 0, fun _ => 32, 1, 0xff, false, false⟩

/-- In the first sector an element of one byte with its end marker, and behind it a length of 127
that goes past the end of the sector. -/
def corrupted : State where
  flash := Function.update (fun _ _ => 0xff) 0
    (Lib.Cells.put (fun _ => 0xff) 8 [0x01, 0x05, Sys.crc8Ccitt 0xff [0x01, 0x05], 0x7f, 0x00])
  oldest := 0
  activeSector := 1
  active := ⟨8, 0, 0⟩
  activeId := 1

theorem corrupted_stored :
    Stored twoSectors corrupted.flash 0 [(1, ⟨8, 9, 1⟩)] (.damaged ⟨11, 12, 127⟩) :=
  .elem (p := (1, ⟨8, 9, 1⟩)) (by decide +kernel) (by decide +kernel)
    (.damaged (p := (1, ⟨11, 12, 127⟩)) (by decide +kernel) (by decide +kernel))

theorem fcb_getnext_walks_corrupted :
    (Designates twoSectors corrupted (getnext twoSectors corrupted ⟨none, 0, 0, 0⟩).2 ∧
      Later twoSectors corrupted ⟨none, 0, 0, 0⟩
        (getnext twoSectors corrupted ⟨none, 0, 0, 0⟩).2) ∧
    ¬ ∃ visited, Visits twoSectors corrupted ⟨none, 0, 0, 0⟩ visited ∧
      (∀ e ∈ visited, Designates twoSectors corrupted e) ∧
      (⟨none, 0, 0, 0⟩ :: visited).IsChain (Later twoSectors corrupted) := by
  have h := fcb_getnext_walks (c := twoSectors) (s := corrupted) (by decide) (by decide)
  refine ⟨(h.1 ⟨none, 0, 0, 0⟩ (by decide)).2 (fun hpast => hpast.1 rfl) (by decide +kernel), ?_⟩
  intro hwalk
  have hsound := (h.2 0 0 [1] (.next (by decide) .last)).1 hwalk 0 mem_cons_self
  have hnil := hsound _ _ corrupted_stored
  exact absurd hnil (by decide +kernel)

/-- The second call returns 0 with the element that goes past the end of the sector, and so does
every further call. -/
theorem fcb_getnext_stays_at_damage :
    getnext twoSectors corrupted ⟨none, 0, 0, 0⟩ = (.ok (), ⟨some 0, 8, 9, 1⟩) ∧
    getnext twoSectors corrupted ⟨some 0, 8, 9, 1⟩ = (.ok (), ⟨some 0, 11, 12, 127⟩) ∧
    ¬ Designates twoSectors corrupted ⟨some 0, 11, 12, 127⟩ ∧
    getnext twoSectors corrupted ⟨some 0, 11, 12, 127⟩ = (.ok (), ⟨some 0, 11, 12, 127⟩) := by
  refine ⟨by decide +kernel, by decide +kernel, ?_, by decide +kernel⟩
  rintro ⟨sector, -, hs, -, hfits, -⟩
  obtain rfl := Option.some.inj hs
  exact absurd hfits (by decide)

end ZephyrRtos.Fcb
