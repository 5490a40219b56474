import Mathlib.Data.List.TakeWhile
import ZephyrRtos.Lib.Bitmap
import ZephyrRtos.Lib.Chain
import ZephyrRtos.Timeout.Refinement

/-! `kernel/timeout_skiplist.h`: a skip list keyed on the absolute expiry tick. -/

namespace ZephyrRtos.Timeout.SkipList

open List Lib

/-- `CONFIG_TIMEOUT_SKIPLIST_MAX_LEVEL`. -/
structure Levels where
  count : ℕ
  four_le : 4 ≤ count
  le_sixteen : count ≤ 16

variable {τ : Type}

/-- The queue's variables and the fields of every node; `none` is the sentinel
`sl_head`.  `size` is not in the source: it counts the queued nodes, to bound the
walks along the list. -/
structure State (τ : Type) where
  forward : Option τ → ℕ → Option τ
  absTicks : τ → ℤ
  height : τ → ℕ
  slTop : ℕ
  slRng : BitVec 32
  size : ℕ

def empty : State τ := ⟨fun _ _ => none, fun _ => 0, fun _ => 0, 0, 2463534242, 0⟩

def skiplistRandomHeight (L : Levels) (rng : BitVec 32) : BitVec 32 × ℕ :=
  let r := rng ^^^ (rng <<< 13)
  let r := r ^^^ (r >>> 17)
  let r := r ^^^ (r <<< 5)
  (r, 1 + min (countTrailingZeros (~~~r)) (L.count - 1))

def skiplistFirst (s : State τ) : Option τ := s.forward none 0

def skiplistDropTop (forward : Option τ → ℕ → Option τ) : ℕ → ℕ
  | 0 => 0
  | n + 1 => if forward none n = none then skiplistDropTop forward n else n + 1

def skiplistUpdateInit : ℕ → Option τ := fun _ => none

/-- The descent from level `n - 1`, starting at `x`: on each level, pass the nodes that
`skip` accepts and note where that ends. -/
def predecessors (s : State τ) (skip : τ → Bool) :
    ℕ → Option τ → (ℕ → Option τ) → ℕ → Option τ
  | 0, _, update => update
  | i + 1, x, update =>
    let y := walk (fun z => s.forward z i) skip s.size x
    predecessors s skip i y (Function.update update i y)

def skiplistPredecessorsAfter (s : State τ) (absTicks : ℤ) (update : ℕ → Option τ) :
    ℕ → Option τ :=
  predecessors s (fun u => decide (s.absTicks u ≤ absTicks)) s.slTop none update

variable [DecidableEq τ]

/-- The second loop of `skiplist_predecessors_of`, for the levels below `n`. -/
def passEqual (s : State τ) (t : τ) : ℕ → (ℕ → Option τ) → ℕ → Option τ
  | 0, update => update
  | i + 1, update =>
    let update := passEqual s t i update
    Function.update update i (walk (fun z => s.forward z i)
      (fun u => decide (u ≠ t ∧ s.absTicks u = s.absTicks t)) s.size (update i))

def skiplistPredecessorsOf (s : State τ) (t : τ) (update : ℕ → Option τ) : ℕ → Option τ :=
  passEqual s t (s.height t)
    (predecessors s (fun u => decide (s.absTicks u < s.absTicks t)) s.slTop none update)

def setLevel (forward : Option τ → ℕ → Option τ) (i : ℕ) (next : Option τ → Option τ) :
    Option τ → ℕ → Option τ :=
  fun x j => if j = i then next x else forward x j

def editLevels (edit : (Option τ → Option τ) → Option τ → τ → Option τ → Option τ)
    (update : ℕ → Option τ) (t : τ) :
    ℕ → (Option τ → ℕ → Option τ) → Option τ → ℕ → Option τ
  | 0, forward => forward
  | i + 1, forward =>
    let forward := editLevels edit update t i forward
    setLevel forward i (edit (fun x => forward x i) (update i) t)

def skiplistUnlink (s : State τ) (t : τ) (update : ℕ → Option τ) : State τ :=
  let forward := editLevels spliceOut update t (s.height t) s.forward
  { s with
    forward := forward
    height := Function.update s.height t 0
    slTop := skiplistDropTop forward s.slTop
    size := s.size - 1 }

def zTimeoutQInsert (L : Levels) (s : State τ) (c : ℕ) (t : τ) (dticks : ℤ) : State τ × Bool :=
  let (rng, height) := skiplistRandomHeight L s.slRng
  let s := { s with
    absTicks := Function.update s.absTicks t (int64 (c + dticks))
    slRng := rng
    height := Function.update s.height t height }
  let update := skiplistPredecessorsAfter s (s.absTicks t) skiplistUpdateInit
  let s := { s with
    slTop := max s.slTop height
    forward := editLevels spliceIn update t height s.forward
    size := s.size + 1 }
  (s, decide (skiplistFirst s = some t))

def zTimeoutQRemove (s : State τ) (t : τ) : State τ × Bool :=
  (skiplistUnlink s t (skiplistPredecessorsOf s t skiplistUpdateInit),
    decide (skiplistFirst s = some t))

def zTimeoutQRemainder (s : State τ) (c : ℕ) (t : τ) : ℤ := int64 (s.absTicks t - c)

def zTimeoutQNextExpiry (s : State τ) (c : ℕ) : ℤ :=
  match skiplistFirst s with
  | none => ticksForever
  | some t => max 0 (int64 (s.absTicks t - c))

def zTimeoutQNextGap (s : State τ) (c : ℕ) : ℤ :=
  match skiplistFirst s with
  | none => int32Max
  | some t =>
    let gap := int64 (s.absTicks t - c)
    if gap ≤ 0 then 0 else int32 (min gap int32Max)

/-- The head is the predecessor on every level, so this is `skiplistUnlink` with a
vector of heads. -/
def zTimeoutQPopDue (s : State τ) (c : ℕ) : Option (τ × State τ) :=
  match skiplistFirst s with
  | none => none
  | some t => if int64 c < s.absTicks t then none
    else some (t, skiplistUnlink s t skiplistUpdateInit)

abbrev queue (L : Levels) (τ : Type) [DecidableEq τ] : Queue τ where
  State := State τ
  init := empty
  isInactive s t := decide (s.height t = 0)
  insert s c t d := some (zTimeoutQInsert L s c t d)
  remove s _ t := zTimeoutQRemove s t
  remainder s c t := zTimeoutQRemainder s c t
  nextExpiry s c := zTimeoutQNextExpiry s c

abbrev drainOps (L : Levels) (τ : Type) [DecidableEq τ] : DrainOps (queue L τ) where
  nextGap s c := zTimeoutQNextGap s c
  advance s _ _ := s
  popDue s c := zTimeoutQPopDue s c

abbrev backend (L : Levels) (τ : Type) [DecidableEq τ] : Backend τ := genericBackend (drainOps L τ)

theorem randomHeight_range (L : Levels) (rng : BitVec 32) :
    1 ≤ (skiplistRandomHeight L rng).2 ∧ (skiplistRandomHeight L rng).2 ≤ L.count := by
  have := L.four_le
  simp only [skiplistRandomHeight]
  omega

def level (s : State τ) (l : List τ) (i : ℕ) : List τ := l.filter fun t => decide (i < s.height t)

/-- `l` is the level-0 chain, and every level is its restriction to the nodes that
reach it. -/
structure Wf (L : Levels) (s : State τ) (l : List τ) : Prop where
  nodup : l.Nodup
  chain : ∀ i, Chain (fun x => s.forward x i) none (level s l i)
  sorted : l.Pairwise (fun t u => s.absTicks t ≤ s.absTicks u)
  active : ∀ t, t ∈ l ↔ 0 < s.height t
  le_levels : ∀ t, s.height t ≤ L.count
  top_le : ∀ t ∈ l, s.height t ≤ s.slTop
  top_mem : s.slTop = 0 ∨ ∃ t ∈ l, s.height t = s.slTop
  size : s.size = l.length

section Descent

variable {s : State τ} {l l₁ l₂ : List τ} {t : τ}

section

omit [DecidableEq τ]

theorem predecessors_of_le (hi : n ≤ i) (x : Option τ) (update : ℕ → Option τ) :
    predecessors s skip n x update i = update i := by
  induction n generalizing x update with
  | zero => rfl
  | succ n ih =>
    rw [predecessors, ih (by omega)]
    exact Function.update_of_ne (by omega) _ _

theorem predecessors_eq (skip : τ → Bool)
    (hc : ∀ i, Chain (fun x => s.forward x i) none (level s (l₁ ++ l₂) i))
    (h₁ : ∀ u ∈ l₁, skip u = true) (h₂ : ∀ u ∈ l₂, ¬skip u = true)
    (hsize : (l₁ ++ l₂).length ≤ s.size) (hi : i < n) (update : ℕ → Option τ) :
    predecessors s skip n (lastFrom none (level s l₁ n)) update i =
      lastFrom none (level s l₁ i) := by
  induction n generalizing update with
  | zero => omega
  | succ n ih =>
    have hwalk : walk (fun z => s.forward z n) skip s.size (lastFrom none (level s l₁ (n + 1))) =
        lastFrom none (level s l₁ n) :=
      Chain.walk_resume (fun u hu => by simp only [decide_eq_true_eq] at hu ⊢; omega) (hc n) h₁ h₂
        hsize
    rw [predecessors, hwalk]
    by_cases hin : i = n
    · subst hin
      rw [predecessors_of_le le_rfl, Function.update_self]
    · exact ih (by omega) _

end

theorem passEqual_eq (update : ℕ → Option τ) :
    passEqual s t n update i = if i < n then walk (fun z => s.forward z i)
      (fun u => decide (u ≠ t ∧ s.absTicks u = s.absTicks t)) s.size (update i) else update i := by
  induction n with
  | zero => simp [passEqual]
  | succ n ih =>
    rw [passEqual]
    by_cases hin : i = n
    · subst hin
      simp [ih]
    · rw [Function.update_of_ne hin, ih]
      simp [show i < n + 1 ↔ i < n by omega]

section

omit [DecidableEq τ]

theorem editLevels_eq :
    editLevels edit update t n forward x i =
      if i < n then edit (fun x => forward x i) (update i) t x else forward x i := by
  induction n generalizing x with
  | zero => simp [editLevels]
  | succ n ih =>
    simp only [editLevels, setLevel]
    by_cases hin : i = n
    · subst hin
      simp [ih]
    · rw [if_neg hin, ih]
      simp [show i < n + 1 ↔ i < n by omega]

theorem level_append (i : ℕ) : level s (l₁ ++ l₂) i = level s l₁ i ++ level s l₂ i :=
  filter_append ..

theorem level_cons_of_lt (hi : i < s.height t) : level s (t :: l) i = t :: level s l i :=
  filter_cons_of_pos (by simpa using hi)

theorem level_cons_of_le (hi : s.height t ≤ i) : level s (t :: l) i = level s l i :=
  filter_cons_of_neg (by simpa using hi)

theorem level_congr (h : ∀ u ∈ l, s'.height u = s.height u) :
    level s' l i = level s l i :=
  filter_congr fun u hu => by rw [h u hu]

theorem dropTop_spec {forward : Option τ → ℕ → Option τ} {height : τ → ℕ}
    (hc : ∀ i, Chain (fun x => forward x i) none (l.filter fun t => decide (i < height t)))
    (hn : ∀ u ∈ l, height u ≤ n) :
    (∀ u ∈ l, height u ≤ skiplistDropTop forward n) ∧
      (skiplistDropTop forward n = 0 ∨ ∃ u ∈ l, height u = skiplistDropTop forward n) := by
  induction n with
  | zero => exact ⟨hn, .inl rfl⟩
  | succ n ih =>
    have hlevel := hc n
    rw [skiplistDropTop]
    cases hl : l.filter fun t => decide (n < height t) with
    | nil =>
      rw [hl] at hlevel
      have hnone : forward none n = none := hlevel
      rw [if_pos hnone]
      refine ih fun u hu => ?_
      have := filter_eq_nil_iff.1 hl u hu
      simpa using this
    | cons u us =>
      rw [hl] at hlevel
      have hsome : forward none n = some u := hlevel.1
      rw [if_neg (by simp [hsome])]
      have hu : u ∈ l.filter fun t => decide (n < height t) := by rw [hl]; exact mem_cons_self
      rw [mem_filter, decide_eq_true_eq] at hu
      exact ⟨hn, .inr ⟨u, hu.1, le_antisymm (hn u hu.1) hu.2⟩⟩

end

end Descent

section Operations

variable {L : Levels} {s : State τ} {l pre post : List τ} {t : τ}

section

omit [DecidableEq τ]

theorem Wf.level_zero (h : Wf L s l) : level s l 0 = l :=
  filter_eq_self.2 fun u hu => by simpa using (h.active u).1 hu

theorem Wf.first (h : Wf L s l) : skiplistFirst s = l.head? := by
  have hc := h.chain 0
  rw [h.level_zero] at hc
  cases l with
  | nil => exact hc
  | cons u us => exact hc.1

end

section

variable (h : Wf L s (pre ++ t :: post))
include h

theorem Wf.unlink (hu : ∀ i < s.height t, update i = lastFrom none (level s pre i)) :
    Wf L (skiplistUnlink s t update) (pre ++ post) := by
  have hnd := h.nodup
  rw [nodup_append'] at hnd
  have htpre : t ∉ pre := fun hm => hnd.2.2 hm mem_cons_self
  have htpost : t ∉ post := (nodup_cons.1 hnd.2.1).1
  have hother : ∀ u ∈ pre ++ post, Function.update s.height t 0 u = s.height u := by
    intro u hmem
    refine Function.update_of_ne ?_ _ _
    rintro rfl
    exact (mem_append.1 hmem).elim htpre htpost
  have hchain : ∀ i, Chain (fun x => editLevels spliceOut update t (s.height t) s.forward x i) none
      ((pre ++ post).filter fun u => decide (i < Function.update s.height t 0 u)) := by
    intro i
    have hlev : (pre ++ post).filter (fun u => decide (i < Function.update s.height t 0 u)) =
        level s pre i ++ level s post i := by
      rw [← level_append]
      exact filter_congr fun u hu => by rw [hother u hu]
    have hc := h.chain i
    rw [level_append] at hc
    simp only [editLevels_eq]
    rw [hlev]
    by_cases hi : i < s.height t
    · rw [level_cons_of_lt hi] at hc
      simp only [if_pos hi, hu i hi]
      refine hc.spliceOut ?_ nofun
      have := h.nodup.filter fun u => decide (i < s.height u)
      rwa [← level, level_append, level_cons_of_lt hi] at this
    · rw [level_cons_of_le (by omega)] at hc
      simpa only [if_neg hi] using hc
  have hsub : (pre ++ post).Sublist (pre ++ t :: post) :=
    (List.Sublist.refl pre).append (sublist_cons_self t post)
  obtain ⟨htop, htopmem⟩ := dropTop_spec hchain (n := s.slTop) fun u hu => by
    rw [hother u hu]
    exact h.top_le u (hsub.subset hu)
  exact {
    nodup := h.nodup.sublist hsub
    chain := hchain
    sorted := h.sorted.sublist hsub
    active u := by
      by_cases hut : u = t
      · subst hut
        simp [skiplistUnlink, htpre, htpost]
      · have := h.active u
        simpa [skiplistUnlink, hut] using this
    le_levels u := by
      by_cases hut : u = t
      · simp [skiplistUnlink, hut]
      · simpa [skiplistUnlink, hut] using h.le_levels u
    top_le := htop
    top_mem := htopmem
    size := by
      have := h.size
      simp only [skiplistUnlink, length_append, length_cons] at this ⊢
      omega }

theorem Wf.split_before :
    ∃ l₁ m, pre = l₁ ++ m ∧ (∀ u ∈ l₁, s.absTicks u < s.absTicks t) ∧
      ∀ u ∈ m, s.absTicks u = s.absTicks t := by
  refine ⟨pre.takeWhile fun u => decide (s.absTicks u < s.absTicks t),
    pre.dropWhile fun u => decide (s.absTicks u < s.absTicks t),
    takeWhile_append_dropWhile.symm, fun u hu => by simpa using mem_takeWhile_imp hu, ?_⟩
  have hs := h.sorted
  rw [pairwise_append] at hs
  intro u hu
  have hle : s.absTicks u ≤ s.absTicks t :=
    hs.2.2 u ((dropWhile_sublist _).subset hu) t mem_cons_self
  cases hd : pre.dropWhile fun u => decide (s.absTicks u < s.absTicks t) with
  | nil => simp [hd] at hu
  | cons v vs =>
    have hv : ¬s.absTicks v < s.absTicks t := by
      have := head_dropWhile_not (fun u => decide (s.absTicks u < s.absTicks t)) (l := pre)
        (by simp [hd])
      simpa [hd] using this
    have hsd := hs.1.sublist (dropWhile_sublist fun u => decide (s.absTicks u < s.absTicks t))
    rw [hd, pairwise_cons] at hsd
    rw [hd] at hu
    rcases mem_cons.1 hu with rfl | hu
    · omega
    · have := hsd.1 u hu
      omega

theorem Wf.predecessorsOf (hi : i < s.height t) :
    skiplistPredecessorsOf s t skiplistUpdateInit i = lastFrom none (level s pre i) := by
  obtain ⟨l₁, m, rfl, hlt, heq⟩ := h.split_before
  have hs := h.sorted
  rw [append_assoc, pairwise_append, pairwise_append] at hs
  have hge : ∀ u ∈ m ++ t :: post, ¬s.absTicks u < s.absTicks t := by
    intro u hu
    rcases mem_append.1 hu with hu | hu
    · rw [heq u hu]
      exact lt_irrefl _
    · rcases mem_cons.1 hu with rfl | hu
      · exact lt_irrefl _
      · exact not_lt.2 ((pairwise_cons.1 hs.2.1.2.1).1 u hu)
  have htop : i < s.slTop := lt_of_lt_of_le hi (h.top_le t (by simp))
  have hchain := h.chain
  simp only [append_assoc] at hchain
  have hnone : lastFrom none (level s l₁ s.slTop) = none := by
    have : level s l₁ s.slTop = [] := filter_eq_nil_iff.2 fun u hu => by
      simpa using h.top_le u (by simp [hu])
    rw [this]
    rfl
  have hpred := predecessors_eq (fun u => decide (s.absTicks u < s.absTicks t)) hchain
    (by simpa using hlt) (by simpa using hge)
    (by rw [h.size]; simp) htop skiplistUpdateInit
  rw [hnone] at hpred
  have hc := hchain i
  rw [level_append, level_append, level_cons_of_lt hi] at hc
  have hm : (level s m i ++ t :: level s post i).takeWhile
      (fun u => decide (u ≠ t ∧ s.absTicks u = s.absTicks t)) = level s m i := by
    have hnd := h.nodup
    rw [append_assoc, nodup_append', nodup_append'] at hnd
    rw [takeWhile_append_of_pos]
    · simp
    intro u hu
    have hu := mem_of_mem_filter hu
    simp only [decide_eq_true_eq]
    refine ⟨?_, heq u hu⟩
    rintro rfl
    exact hnd.2.1.2.2 hu mem_cons_self
  rw [skiplistPredecessorsOf, passEqual_eq, if_pos hi, hpred, hc.drop.walk_eq _ ?_, hm,
    level_append, lastFrom_append]
  have := length_filter_le (fun u => decide (i < s.height u)) m
  have := length_filter_le (fun u => decide (i < s.height u)) post
  have := h.size
  simp only [length_append, length_cons, level] at this ⊢
  omega

theorem Wf.remove : Wf L (zTimeoutQRemove s t).1 (pre ++ post) :=
  h.unlink fun _ hi => h.predecessorsOf hi

end

/-- The level-0 chain after an insertion: behind every node that is not later. -/
def insertAt (absTicks : τ → ℤ) (a : ℤ) (t : τ) (l : List τ) : List τ :=
  l.takeWhile (fun u => decide (absTicks u ≤ a)) ++
    t :: l.dropWhile (fun u => decide (absTicks u ≤ a))

theorem Wf.lt_of_mem_dropWhile (h : Wf L s l) :
    ∀ u ∈ l.dropWhile (fun u => decide (s.absTicks u ≤ a)), a < s.absTicks u := by
  intro u hu
  cases hd : l.dropWhile fun u => decide (s.absTicks u ≤ a) with
  | nil => simp [hd] at hu
  | cons v vs =>
    have hv : a < s.absTicks v := by
      have := head_dropWhile_not (fun u => decide (s.absTicks u ≤ a)) (l := l) (by simp [hd])
      simpa [hd] using this
    have hsd := h.sorted.sublist (dropWhile_sublist fun u => decide (s.absTicks u ≤ a))
    rw [hd, pairwise_cons] at hsd
    rw [hd] at hu
    rcases mem_cons.1 hu with rfl | hu
    · exact hv
    · exact hv.trans_le (hsd.1 u hu)

theorem Wf.predecessorsAfter (h : Wf L s l) (ht : t ∉ l) (rng : BitVec 32) (i : ℕ) :
    skiplistPredecessorsAfter { s with
      absTicks := Function.update s.absTicks t a
      slRng := rng
      height := Function.update s.height t n } a skiplistUpdateInit i =
      lastFrom none (level s (l.takeWhile fun u => decide (s.absTicks u ≤ a)) i) := by
  have hne : ∀ u ∈ l, u ≠ t := by
    rintro u hu rfl
    exact ht hu
  have hsame : ∀ {l' : List τ} {j : ℕ}, (∀ u ∈ l', u ∈ l) → level { s with
      absTicks := Function.update s.absTicks t a
      slRng := rng
      height := Function.update s.height t n } l' j = level s l' j := fun hsub =>
    level_congr fun u hu => Function.update_of_ne (hne u (hsub u hu)) _ _
  have htake : ∀ u ∈ l.takeWhile fun u => decide (s.absTicks u ≤ a), u ∈ l :=
    fun u hu => (takeWhile_sublist _).subset hu
  have hempty : ∀ j, s.slTop ≤ j →
      level s (l.takeWhile fun u => decide (s.absTicks u ≤ a)) j = [] := by
    intro j hj
    refine filter_eq_nil_iff.2 fun u hu => ?_
    have := h.top_le u (htake u hu)
    simp only [decide_eq_true_eq]
    omega
  have hchain : ∀ j, Chain (fun x => s.forward x j) none (level { s with
      absTicks := Function.update s.absTicks t a
      slRng := rng
      height := Function.update s.height t n } (l.takeWhile (fun u => decide (s.absTicks u ≤ a)) ++
        l.dropWhile fun u => decide (s.absTicks u ≤ a)) j) := by
    intro j
    rw [takeWhile_append_dropWhile, hsame fun u hu => hu]
    exact h.chain j
  by_cases hi : i < s.slTop
  · have hpred := predecessors_eq (s := { s with
        absTicks := Function.update s.absTicks t a
        slRng := rng
        height := Function.update s.height t n })
      (fun u => decide (Function.update s.absTicks t a u ≤ a)) hchain
      (fun u hu => by
        simpa [hne u (htake u hu)] using mem_takeWhile_imp hu)
      (fun u hu => by
        have hmem := (dropWhile_sublist _).subset hu
        simpa [hne u hmem] using h.lt_of_mem_dropWhile u hu)
      (by rw [takeWhile_append_dropWhile]; exact h.size.ge) hi skiplistUpdateInit
    rwa [hsame htake, hsame htake, hempty _ le_rfl] at hpred
  · rw [skiplistPredecessorsAfter, predecessors_of_le (by simpa using hi), hempty i (by omega)]
    rfl

theorem insert_height (c : ℕ) (d : ℤ) : (zTimeoutQInsert L s c t d).1.height =
    Function.update s.height t (skiplistRandomHeight L s.slRng).2 := rfl

theorem insert_absTicks (c : ℕ) (d : ℤ) : (zTimeoutQInsert L s c t d).1.absTicks =
    Function.update s.absTicks t (int64 (c + d)) := rfl

theorem Wf.insert_chain (h : Wf L s l) (ht : t ∉ l) (c : ℕ) (d : ℤ) (i : ℕ) :
    Chain (fun x => (zTimeoutQInsert L s c t d).1.forward x i) none
      (level (zTimeoutQInsert L s c t d).1 (insertAt s.absTicks (int64 (c + d)) t l) i) := by
  have hne : ∀ u ∈ l, u ≠ t := by
    rintro u hu rfl
    exact ht hu
  have hlev : ∀ {l' : List τ}, l'.Sublist l →
      level (zTimeoutQInsert L s c t d).1 l' i = level s l' i := by
    refine fun hsub => level_congr fun u hu => ?_
    rw [insert_height, Function.update_of_ne (hne u (hsub.subset hu))]
  have hsplit : level s (l.takeWhile fun u => decide (s.absTicks u ≤ int64 (c + d))) i ++
      level s (l.dropWhile fun u => decide (s.absTicks u ≤ int64 (c + d))) i = level s l i := by
    rw [← level_append, takeWhile_append_dropWhile]
  have hc := h.chain i
  rw [← hsplit] at hc
  have hnd := h.nodup.filter fun u => decide (i < s.height u)
  rw [← level, ← hsplit] at hnd
  have hforward : ∀ x, (zTimeoutQInsert L s c t d).1.forward x i =
      if i < (skiplistRandomHeight L s.slRng).2 then
        spliceIn (fun x => s.forward x i)
          (lastFrom none (level s (l.takeWhile fun u => decide (s.absTicks u ≤ int64 (c + d))) i)) t x
      else s.forward x i := by
    intro x
    rw [← h.predecessorsAfter ht (n := (skiplistRandomHeight L s.slRng).2)
      (skiplistRandomHeight L s.slRng).1 i]
    simp [zTimeoutQInsert, editLevels_eq]
  have hself : (zTimeoutQInsert L s c t d).1.height t = (skiplistRandomHeight L s.slRng).2 := by
    rw [insert_height, Function.update_self]
  simp only [hforward]
  rw [insertAt, level_append, hlev (takeWhile_sublist _)]
  by_cases hi : i < (skiplistRandomHeight L s.slRng).2
  · rw [level_cons_of_lt (by rwa [hself]), hlev (dropWhile_sublist _)]
    simp only [if_pos hi]
    refine hc.spliceIn hnd nofun ?_ nofun
    rw [hsplit]
    exact fun hm => ht (mem_of_mem_filter hm)
  · rw [level_cons_of_le (by rw [hself]; omega), hlev (dropWhile_sublist _)]
    simpa only [if_neg hi] using hc

theorem Wf.insert (h : Wf L s l) (ht : t ∉ l) (c : ℕ) (d : ℤ) :
    Wf L (zTimeoutQInsert L s c t d).1 (insertAt s.absTicks (int64 (c + d)) t l) := by
  obtain ⟨hn1, hnL⟩ := randomHeight_range L s.slRng
  have hne : ∀ u ∈ l, u ≠ t := by
    rintro u hu rfl
    exact ht hu
  have hperm : (insertAt s.absTicks (int64 (c + d)) t l).Perm (t :: l) := by
    refine perm_middle.trans ?_
    rw [takeWhile_append_dropWhile]
  have hmem : ∀ u, u ∈ insertAt s.absTicks (int64 (c + d)) t l ↔ u = t ∨ u ∈ l := fun u => by
    rw [hperm.mem_iff, mem_cons]
  exact {
    nodup := hperm.nodup_iff.2 (nodup_cons.2 ⟨ht, h.nodup⟩)
    chain := h.insert_chain ht c d
    sorted := by
      have hs := h.sorted
      rw [← takeWhile_append_dropWhile
        (p := fun u => decide (s.absTicks u ≤ int64 (c + d))) (l := l), pairwise_append] at hs
      have hkey : ∀ u ∈ l, (zTimeoutQInsert L s c t d).1.absTicks u = s.absTicks u := fun u hu => by
        rw [insert_absTicks, Function.update_of_ne (hne u hu)]
      have htake : ∀ {u}, u ∈ l.takeWhile (fun u => decide (s.absTicks u ≤ int64 (c + d))) →
          u ∈ l := fun hu => (takeWhile_sublist _).subset hu
      have hdrop : ∀ {u}, u ∈ l.dropWhile (fun u => decide (s.absTicks u ≤ int64 (c + d))) →
          u ∈ l := fun hu => (dropWhile_sublist _).subset hu
      have hself : (zTimeoutQInsert L s c t d).1.absTicks t = int64 (c + d) := by
        rw [insert_absTicks, Function.update_self]
      rw [insertAt, pairwise_append, pairwise_cons]
      refine ⟨hs.1.imp_of_mem fun hu hv huv => ?_, ⟨fun u hu => ?_, hs.2.1.imp_of_mem
        fun hu hv huv => ?_⟩, fun u hu v hv => ?_⟩
      · rwa [hkey _ (htake hu), hkey _ (htake hv)]
      · rw [hself, hkey u (hdrop hu)]
        exact (h.lt_of_mem_dropWhile u hu).le
      · rwa [hkey _ (hdrop hu), hkey _ (hdrop hv)]
      · rcases mem_cons.1 hv with rfl | hv
        · rw [hself, hkey u (htake hu)]
          simpa using mem_takeWhile_imp hu
        · rw [hkey u (htake hu), hkey v (hdrop hv)]
          exact hs.2.2 u hu v hv
    active u := by
      rw [hmem, insert_height]
      by_cases hut : u = t
      · subst hut
        simp; omega
      · simpa [hut] using h.active u
    le_levels u := by
      rw [insert_height]
      by_cases hut : u = t
      · subst hut
        simpa using hnL
      · simpa [hut] using h.le_levels u
    top_le u hu := by
      rw [insert_height]
      rcases (hmem u).1 hu with rfl | hu
      · simp [zTimeoutQInsert]
      · rw [Function.update_of_ne (hne u hu)]
        exact (h.top_le u hu).trans (le_max_left _ _)
    top_mem := by
      right
      by_cases hle : s.slTop ≤ (skiplistRandomHeight L s.slRng).2
      · exact ⟨t, (hmem t).2 (.inl rfl), by
          simp only [zTimeoutQInsert, Function.update_self, max_eq_right hle]⟩
      · rcases h.top_mem with h0 | ⟨u, hu, htop⟩
        · omega
        · refine ⟨u, (hmem u).2 (.inr hu), ?_⟩
          simp only [zTimeoutQInsert, Function.update_of_ne (hne u hu), htop]
          exact (max_eq_left (by omega)).symm
    size := by
      rw [hperm.length_eq, length_cons, ← h.size]
      rfl }

end Operations

end ZephyrRtos.Timeout.SkipList
