import ZephyrRtos.Lib.Bitmap
import ZephyrRtos.Timeout.Refinement

/-! `kernel/timeout_bucket.h`: one list per tick of an aligned window, and a list
sorted by absolute expiry for everything beyond it. -/

namespace ZephyrRtos.Timeout.Bucket

open List Function Lib

/-- `CONFIG_TIMEOUT_BUCKET_LISTS` is a power of two from 8 to 64. -/
structure Window where
  log2 : ℕ
  three_le : 3 ≤ log2
  le_six : log2 ≤ 6

def Window.lists (W : Window) : ℕ := 2 ^ W.log2
def Window.mask (W : Window) : ℕ := W.lists - 1
def Window.bitmapWidth (W : Window) : ℕ := if W.lists ≤ 32 then 32 else 64

variable {τ : Type} {W : Window}

structure State (W : Window) (τ : Type) where
  bucket : ℕ → List τ
  overflow : List τ
  bucketBits : BitVec W.bitmapWidth
  cursorBase : ℕ
  dticks : τ → ℤ

def timeoutBucketInit : State W τ := ⟨fun _ => [], [], 0, 0, fun _ => 0⟩

def bucketBit (W : Window) (n : ℕ) : BitVec W.bitmapWidth := bit W.bitmapWidth n

def overflowHead (s : State W τ) : Option τ := s.overflow.head?

def Window.offset (W : Window) (x : ℕ) : ℕ := x &&& W.mask

def ahead (s : State W τ) (c : ℕ) : BitVec W.bitmapWidth :=
  bitsFrom s.bucketBits (W.offset c + 1)

def earliestGap (s : State W τ) (c : ℕ) : ℤ :=
  if W.offset c < W.lists - 1 ∧ ahead s c ≠ 0 then
    countTrailingZeros (ahead s c) - W.offset c
  else match overflowHead s with
    | some t => int64 (s.dticks t - c)
    | none => int64Max

def overflowInsert (key : τ → ℕ) (t : τ) (expiry : ℕ) : List τ → List τ
  | [] => [t]
  | u :: us => if expiry < key u then t :: u :: us else u :: overflowInsert key t expiry us

variable [DecidableEq τ]

def appendBucket (s : State W τ) (t : τ) (idx : ℕ) : State W τ :=
  { s with
    dticks := update s.dticks t idx
    bucketBits := s.bucketBits ||| bucketBit W idx
    bucket := update s.bucket idx (s.bucket idx ++ [t]) }

def zTimeoutQInsert (s : State W τ) (c : ℕ) (t : τ) (dticks : ℤ) : State W τ × Bool :=
  let expiry := uint64 (c + dticks)
  let oldGap := earliestGap s c
  (if expiry < s.cursorBase + W.lists then appendBucket s t (W.offset expiry)
    else { s with
      dticks := update s.dticks t (int64 expiry)
      overflow := overflowInsert (fun u => uint64 (s.dticks u)) t expiry s.overflow },
    decide (dticks < oldGap))

def zTimeoutQRemainder (s : State W τ) (c : ℕ) (t : τ) : ℤ :=
  if uint64 (s.dticks t) < W.lists then
    int64 (s.cursorBase + W.offset (uint64 (s.dticks t - s.cursorBase)) - c)
  else int64 (uint64 (s.dticks t) - c)

def takeBucket (s : State W τ) (idx : ℕ) (l : List τ) : State W τ :=
  { s with
    bucket := update s.bucket idx l
    bucketBits := if l = [] then s.bucketBits &&& ~~~bucketBit W idx else s.bucketBits }

def zTimeoutQRemove (s : State W τ) (c : ℕ) (t : τ) : State W τ × Bool :=
  let wasFirst := decide (zTimeoutQRemainder s c t ≤ earliestGap s c)
  let idx := uint64 (s.dticks t)
  (if idx < W.lists then takeBucket s idx ((s.bucket idx).erase t)
    else { s with overflow := s.overflow.erase t }, wasFirst)

def zTimeoutQNextExpiry (s : State W τ) (c : ℕ) : ℤ :=
  if earliestGap s c = int64Max then ticksForever else earliestGap s c

def zTimeoutQNextGap (s : State W τ) (c : ℕ) : ℤ :=
  if earliestGap s c = int64Max then int32Max else int32 (min (earliestGap s c) int32Max)

/-- The loop of `z_timeout_q_advance` over the overflow list `l`. -/
def migrate : List τ → State W τ → State W τ
  | [], s => { s with overflow := [] }
  | t :: ts, s =>
    if uint64 (s.dticks t) < s.cursorBase + W.lists then
      migrate ts (appendBucket s t (W.offset (uint64 (s.dticks t))))
    else { s with overflow := t :: ts }

def zTimeoutQAdvance (s : State W τ) (c : ℕ) (dt : ℤ) : State W τ :=
  let newCurr := (c + dt).toNat
  if newCurr < s.cursorBase + W.lists then s
  else migrate s.overflow
    { s with cursorBase := newCurr - W.offset newCurr, bucketBits := 0 }

def zTimeoutQPopDue (s : State W τ) (c : ℕ) : Option (τ × State W τ) :=
  match s.bucket (W.offset c) with
  | [] => none
  | t :: ts => some (t, takeBucket s (W.offset c) ts)

abbrev queue (W : Window) (τ : Type) [DecidableEq τ] : Queue τ where
  State := State W τ
  init := timeoutBucketInit
  isInactive s t := decide (t ∉ s.overflow ∧ ∀ i < W.lists, t ∉ s.bucket i)
  insert s c t d := some (zTimeoutQInsert s c t d)
  remove s c t := zTimeoutQRemove s c t
  remainder s c t := zTimeoutQRemainder s c t
  nextExpiry s c := zTimeoutQNextExpiry s c

abbrev drainOps (W : Window) (τ : Type) [DecidableEq τ] : DrainOps (queue W τ) where
  nextGap s c := zTimeoutQNextGap s c
  advance s c dt := zTimeoutQAdvance s c dt
  popDue s c := zTimeoutQPopDue s c

abbrev backend (W : Window) (τ : Type) [DecidableEq τ] : Backend τ := genericBackend (drainOps W τ)

section Arithmetic

variable (W)

theorem Window.lists_pos : 0 < W.lists := Nat.two_pow_pos _

theorem Window.lists_le : W.lists ≤ 64 := Nat.pow_le_pow_right (n := 2) (by norm_num) W.le_six

theorem Window.lists_le_width : W.lists ≤ W.bitmapWidth := by
  have := W.lists_le
  simp only [Window.bitmapWidth]
  split <;> omega

theorem Window.offset_eq (x : ℕ) : W.offset x = x % W.lists :=
  Nat.and_two_pow_sub_one_eq_mod x W.log2

theorem Window.offset_uint64 (x : ℤ) : (W.offset (uint64 x) : ℤ) = x % W.lists := by
  have hdvd : (W.lists : ℤ) ∣ 2 ^ 64 := by
    have hle := W.le_six
    exact_mod_cast pow_dvd_pow 2 (by omega)
  rw [W.offset_eq, Int.natCast_mod, coe_uint64, Int.emod_emod_of_dvd _ hdvd]

variable {W}

theorem mod_of_aligned (ha : base % L = 0) (h : base ≤ x) (h' : x < base + L) :
    x % L = x - base := by
  obtain ⟨q, rfl⟩ := Nat.dvd_of_mod_eq_zero ha
  obtain ⟨i, rfl⟩ := Nat.exists_eq_add_of_le h
  rw [Nat.mul_add_mod, Nat.mod_eq_of_lt (by omega)]
  omega

end Arithmetic

structure InBuckets (s : State W τ) (q : List (τ × ℤ)) : Prop where
  bucket : ∀ i < W.lists, s.bucket i = (q.filter (hasKey ((s.cursorBase : ℤ) + i))).map Prod.fst
  index : ∀ i < W.lists, ∀ t ∈ s.bucket i, s.dticks t = i
  bits : ∀ i, s.bucketBits.getLsbD i = true ↔ i < W.lists ∧ s.bucket i ≠ []

section InBuckets

variable {s : State W τ} {q : List (τ × ℤ)} {t : τ} {i : ℕ}

section

variable (h : InBuckets s q)
include h

section

omit [DecidableEq τ]

theorem InBuckets.mem_bucket (hi : i < W.lists) :
    t ∈ s.bucket i ↔ (t, (s.cursorBase : ℤ) + i) ∈ q := by
  rw [h.bucket i hi]
  simp

theorem InBuckets.uint64_index (hi : i < W.lists) (ht : t ∈ s.bucket i) :
    uint64 (s.dticks t) = i := by
  have := W.lists_le
  have := uint64_eq (x := (i : ℤ))
  rw [h.index i hi t ht]
  omega

end

theorem InBuckets.append (ht : t ∉ q.map Prod.fst) (hi : i < W.lists) :
    InBuckets (appendBucket s t i) (q ++ [(t, (s.cursorBase : ℤ) + i)]) where
  bucket j hj := by
    by_cases hji : j = i
    · subst hji
      simp [appendBucket, h.bucket j hj]
    · simp [appendBucket, hji, h.bucket j hj, show ¬i = j from Ne.symm hji]
  index j hj u hu := by
    by_cases hut : u = t
    · subst hut
      have hne : u ∉ s.bucket j := fun hm => ht (mem_map_of_mem ((h.mem_bucket hj).1 hm))
      by_cases hji : j = i
      · simp [appendBucket, hji]
      · simp [appendBucket, hji, hne] at hu
    have hmem : u ∈ s.bucket j := by
      by_cases hji : j = i
      · subst hji
        simpa [appendBucket, hut] using hu
      · simpa [appendBucket, hji] using hu
    simpa [appendBucket, hut] using h.index j hj u hmem
  bits j := by
    have hw := W.lists_le_width
    simp only [appendBucket, bucketBit, getLsbD_or_bit _ (show i < W.bitmapWidth by omega), Bool.or_eq_true, h.bits]
    by_cases hji : j = i
    · subst hji
      simp [hi]
    · simp [hji]

theorem InBuckets.take (hn : (q.map Prod.fst).Nodup) (hi : i < W.lists) (ht : t ∈ s.bucket i) :
    InBuckets (takeBucket s i ((s.bucket i).erase t)) (dropKey t q) where
  bucket j hj := by
    have hmem := (h.mem_bucket hi).1 ht
    by_cases hji : j = i
    · subst hji
      have hnf : ((q.filter (hasKey ((s.cursorBase : ℤ) + j))).map Prod.fst).Nodup :=
        hn.sublist (filter_sublist.map _)
      simp only [takeBucket, update_self, h.bucket j hj]
      rw [← fst_dropKey_erase hnf, dropKey, dropKey, filter_comm]
    · simp only [takeBucket, update_of_ne hji, h.bucket j hj]
      rw [filter_dropKey_of_not hn hmem (by simpa using Ne.symm hji)]
  index j hj u hu := by
    refine h.index j hj u ?_
    by_cases hji : j = i
    · subst hji
      exact mem_of_mem_erase (by simpa [takeBucket] using hu)
    · simpa [takeBucket, hji] using hu
  bits j := by
    have hw := W.lists_le_width
    have hb := h.bits j
    simp only [takeBucket]
    by_cases hji : j = i
    · subst hji
      have hset : s.bucketBits.getLsbD j = true := hb.2 ⟨hi, ne_nil_of_mem ht⟩
      split
      · next hnil =>
        rw [bucketBit, getLsbD_and_not_bit _ (by omega)]
        simp [hnil]
      · next hne => simp [hset, hi, hne]
    · split
      · rw [bucketBit, getLsbD_and_not_bit _ (by omega)]
        simpa [hji] using hb
      · simpa [hji] using hb

end

end InBuckets

def expiries (dticks : τ → ℤ) (l : List τ) : List (τ × ℤ) :=
  l.map fun t => (t, (uint64 (dticks t) : ℤ))

def overflowKeys (s : State W τ) : List (τ × ℤ) := expiries s.dticks s.overflow

def beyond (W : Window) (base : ℕ) (x : τ × ℤ) : Bool := decide ((base : ℤ) + W.lists ≤ x.2)

@[simp] theorem beyond_iff : beyond W base x = true ↔ (base : ℤ) + W.lists ≤ x.2 := by
  simp [beyond]

/-- The window invariant: every pending timeout of the window is in the bucket of its
tick, and every later one in the overflow list. -/
structure Holds (s : State W τ) (c : ℕ) (p : List (τ × ℤ)) : Prop where
  aligned : s.cursorBase % W.lists = 0
  base_le : s.cursorBase ≤ c
  lt_end : c < s.cursorBase + W.lists
  nodup : (p.map Prod.fst).Nodup
  due : ∀ x ∈ p, (c : ℤ) ≤ x.2
  bound : ∀ x ∈ p, x.2 - c ≤ int64Max
  counter : ∀ x ∈ p, x.2 < 2 ^ 64
  buckets : InBuckets s p
  overflow : StableSort (overflowKeys s) (p.filter (beyond W s.cursorBase))

section Holds

variable {s : State W τ} {c : ℕ} {p : List (τ × ℤ)} {t : τ} {e : ℤ}

section

variable (h : Holds s c p)
include h

section

omit [DecidableEq τ]

theorem Holds.mem_overflowKeys :
    (t, e) ∈ overflowKeys s ↔ (t, e) ∈ p ∧ (s.cursorBase : ℤ) + W.lists ≤ e := by
  rw [h.overflow.mem_iff]
  simp

theorem Holds.mem_overflow :
    t ∈ s.overflow ↔ ∃ e, (t, e) ∈ p ∧ (s.cursorBase : ℤ) + W.lists ≤ e := by
  simp only [← h.mem_overflowKeys]
  simp [overflowKeys, expiries]

theorem Holds.cases (ht : (t, e) ∈ p) :
    (∃ i < W.lists, e = s.cursorBase + i ∧ t ∈ s.bucket i) ∨
      ((s.cursorBase : ℤ) + W.lists ≤ e ∧ (t, e) ∈ overflowKeys s) := by
  have hle := h.due _ ht
  have hbase := h.base_le
  by_cases hout : (s.cursorBase : ℤ) + W.lists ≤ e
  · exact .inr ⟨hout, h.mem_overflowKeys.2 ⟨ht, hout⟩⟩
  · have hi : (e - s.cursorBase).toNat < W.lists := by omega
    refine .inl ⟨(e - s.cursorBase).toNat, hi, by omega, ?_⟩
    rw [h.buckets.mem_bucket hi]
    rwa [show (s.cursorBase : ℤ) + (e - s.cursorBase).toNat = e by omega]

theorem Holds.inactive : (t ∉ s.overflow ∧ ∀ i < W.lists, t ∉ s.bucket i) ↔ t ∉ p.map Prod.fst := by
  constructor
  · rintro ⟨hover, hbucket⟩ hmem
    obtain ⟨⟨t', e⟩, hx, rfl⟩ := mem_map.1 hmem
    rcases h.cases hx with ⟨i, hi, -, hb⟩ | ⟨hout, -⟩
    · exact hbucket i hi hb
    · exact hover (h.mem_overflow.2 ⟨e, hx, hout⟩)
  · refine fun hnot => ⟨fun hover => ?_, fun i hi hb => ?_⟩
    · obtain ⟨e, hx, -⟩ := h.mem_overflow.1 hover
      exact hnot (mem_map_of_mem hx)
    · exact hnot (mem_map_of_mem ((h.buckets.mem_bucket hi).1 hb))

theorem Holds.offset_now : W.offset c = c - s.cursorBase := by
  rw [W.offset_eq, mod_of_aligned h.aligned h.base_le h.lt_end]

theorem Holds.ahead_iff :
    (ahead s c).getLsbD i = true ↔ i < W.lists ∧ s.bucket i ≠ [] ∧ c < s.cursorBase + i := by
  have hbase := h.base_le
  simp only [ahead, getLsbD_bitsFrom, Bool.and_eq_true, decide_eq_true_eq, h.buckets.bits,
    h.offset_now]
  constructor
  · rintro ⟨⟨hi, hne⟩, hle⟩
    exact ⟨hi, hne, by omega⟩
  · rintro ⟨hi, hne, hlt⟩
    exact ⟨⟨hi, hne⟩, by omega⟩

theorem Holds.overflow_of_no_ahead (hno : ¬(W.offset c < W.lists - 1 ∧ ahead s c ≠ 0)) (hx : x ∈ p)
    (hlt : (c : ℤ) < x.2) : x ∈ overflowKeys s := by
  rcases h.cases hx with ⟨i, hi, he, hb⟩ | ⟨-, hov⟩
  · have hbase := h.base_le
    have hbit := h.ahead_iff.2 ⟨hi, ne_nil_of_mem hb, by omega⟩
    refine absurd ⟨?_, ne_zero_of_getLsbD hbit⟩ hno
    rw [h.offset_now]
    omega
  · exact hov

theorem Holds.earliestGap_spec :
    (0 ≤ earliestGap s c ∧ earliestGap s c ≤ int64Max) ∧
      (∀ x ∈ p, (c : ℤ) < x.2 → c + earliestGap s c ≤ x.2) ∧
      (earliestGap s c ≠ int64Max → ∃ x ∈ p, (c : ℤ) < x.2 ∧ x.2 = c + earliestGap s c) := by
  have hbase := h.base_le
  by_cases hah : W.offset c < W.lists - 1 ∧ ahead s c ≠ 0
  · obtain ⟨hi, hne, hlt⟩ := h.ahead_iff.1 (getLsbD_ctz hah.2)
    obtain ⟨t, ht⟩ := exists_mem_of_ne_nil _ hne
    have hmem := (h.buckets.mem_bucket hi).1 ht
    have hgap : (c : ℤ) + earliestGap s c = s.cursorBase + countTrailingZeros (ahead s c) := by
      rw [earliestGap, if_pos hah, h.offset_now]
      omega
    have hb := h.bound _ hmem
    refine ⟨⟨by omega, by omega⟩, fun x hx hcx => ?_, fun _ => ⟨_, hmem, by simp only; omega, by
      simp only; omega⟩⟩
    rcases h.cases hx with ⟨j, hj, he, hbj⟩ | ⟨hout, -⟩
    · have := ctz_le (h.ahead_iff.2 ⟨hj, ne_nil_of_mem hbj, by omega⟩)
      omega
    · omega
  · rw [earliestGap, if_neg hah]
    cases hl : s.overflow with
    | nil =>
      simp only [overflowHead, hl]
      refine ⟨by simp [int64Max], fun x hx hcx => ?_, by simp⟩
      have := h.overflow_of_no_ahead hah hx hcx
      simp [overflowKeys, expiries, hl] at this
    | cons t ts =>
      have hkeys : overflowKeys s = (t, (uint64 (s.dticks t) : ℤ)) ::
          ts.map fun u => (u, (uint64 (s.dticks u) : ℤ)) := by
        simp [overflowKeys, expiries, hl]
      have hsort := h.overflow
      rw [hkeys] at hsort
      have hmem : (t, (uint64 (s.dticks t) : ℤ)) ∈ p ∧ _ :=
        h.mem_overflowKeys.1 (by rw [hkeys]; exact mem_cons_self)
      have hb := h.bound _ hmem.1
      have hend := h.lt_end
      have hgap : int64 (s.dticks t - c) = uint64 (s.dticks t) - c := by
        rw [← int64_uint64_sub]
        exact int64_eq hb
      simp only [overflowHead, hl, head?_cons, hgap]
      refine ⟨⟨by omega, hb⟩, fun x hx hcx => ?_, fun _ => ⟨_, hmem.1, by simp only; omega, by
        simp only; omega⟩⟩
      have hx' := h.overflow_of_no_ahead hah hx hcx
      have := hsort.head.1 x ((h.overflow.mem_iff x).1 hx')
      omega

theorem Holds.nextGap (hf : ∀ x ∈ p, (c : ℤ) < x.2) :
    0 < zTimeoutQNextGap s c ∧ zTimeoutQNextGap s c ≤ int32Max ∧
      ∀ x ∈ p, c + zTimeoutQNextGap s c ≤ x.2 := by
  obtain ⟨⟨-, hm⟩, hle, hex⟩ := h.earliestGap_spec
  simp only [zTimeoutQNextGap]
  split
  · next hmax =>
    refine ⟨by simp [int32Max], le_rfl, fun x hx => ?_⟩
    have := hle x hx (hf x hx)
    simp only [hmax, int64Max] at this
    simp only [int32Max]
    omega
  · rw [int32_eq (by simp only [int32Max]; omega) (min_le_right _ _)]
    refine ⟨by simp only [int32Max]; omega, min_le_right _ _, fun x hx => ?_⟩
    have := hle x hx (hf x hx)
    omega

end

end

theorem overflowInsert_keys (key key' : τ → ℕ) (expiry : ℕ) (ht : key' t = expiry)
    (hl : ∀ u ∈ l, key' u = key u) :
    (overflowInsert key t expiry l).map (fun u => (u, (key' u : ℤ))) =
      insertStable (t, (expiry : ℤ)) (l.map fun u => (u, (key u : ℤ))) := by
  induction l with
  | nil => simp [overflowInsert, insertStable, ht]
  | cons u us ih =>
    rw [forall_mem_cons] at hl
    simp only [overflowInsert, map_cons, insertStable, Nat.cast_lt]
    split
    · simp only [map_cons, ht, hl.1]
      rw [map_congr_left fun v hv => by rw [hl.2 v hv]]
    · rw [map_cons, hl.1, ih hl.2]

section

variable (h : Holds s c p)
include h

theorem Holds.insert (ht : t ∉ p.map Prod.fst) (h0 : 0 ≤ d) (hm : d ≤ int64Max)
    (hc : (c : ℤ) + d < 2 ^ 64) : Holds (zTimeoutQInsert s c t d).1 c (p ++ [(t, c + d)]) := by
  have hexp : (uint64 (c + d) : ℤ) = c + d := uint64_eq (by omega) hc
  have hbase := h.base_le
  have hinact := h.inactive.2 ht
  have hnodup := nodup_snoc (e := (c : ℤ) + d) h.nodup ht
  have hdue : ∀ x ∈ p ++ [(t, (c : ℤ) + d)], (c : ℤ) ≤ x.2 :=
    forall_mem_append.2 ⟨h.due, by simpa using h0⟩
  have hbound : ∀ x ∈ p ++ [(t, (c : ℤ) + d)], x.2 - c ≤ int64Max :=
    forall_mem_append.2 ⟨h.bound, by simp; omega⟩
  have hcounter : ∀ x ∈ p ++ [(t, (c : ℤ) + d)], x.2 < 2 ^ 64 :=
    forall_mem_append.2 ⟨h.counter, by simpa using hc⟩
  by_cases hin : uint64 (c + d) < s.cursorBase + W.lists
  · have hoff : W.offset (uint64 (c + d)) = uint64 (c + d) - s.cursorBase := by
      rw [W.offset_eq, mod_of_aligned h.aligned (by omega) hin]
    have hb := h.buckets.append ht (i := W.offset (uint64 (c + d))) (by omega)
    rw [show (s.cursorBase : ℤ) + (W.offset (uint64 (c + d)) : ℕ) = c + d by omega] at hb
    have hkeys : overflowKeys (appendBucket s t (W.offset (uint64 (c + d)))) = overflowKeys s := by
      refine map_congr_left fun u hu => ?_
      have hut : u ≠ t := by
        rintro rfl
        exact hinact.1 hu
      simp [appendBucket, hut]
    have hout : ¬(s.cursorBase : ℤ) + W.lists ≤ c + d := by omega
    simp only [zTimeoutQInsert, if_pos hin]
    refine ⟨h.aligned, h.base_le, h.lt_end, hnodup, hdue, hbound, hcounter, hb, ?_⟩
    rw [hkeys]
    simpa [appendBucket, hout] using h.overflow
  · simp only [zTimeoutQInsert, if_neg hin]
    refine ⟨h.aligned, h.base_le, h.lt_end, hnodup, hdue, hbound, hcounter, ?_, ?_⟩
    · refine ⟨fun i hi => ?_, fun i hi u hu => ?_, h.buckets.bits⟩
      · have : ¬(c : ℤ) + d = s.cursorBase + i := by omega
        simpa [this] using h.buckets.bucket i hi
      · have hut : u ≠ t := by
          rintro rfl
          exact hinact.2 i hi hu
        simpa [hut] using h.buckets.index i hi u hu
    · have hout : (s.cursorBase : ℤ) + W.lists ≤ c + d := by omega
      have hkeys := overflowInsert_keys (t := t) (l := s.overflow)
        (fun u => uint64 (s.dticks u))
        (fun u => uint64 (update s.dticks t (int64 (uint64 (c + d))) u)) (uint64 (c + d))
        (by have := uint64_eq (x := uint64 (c + d))
            simp only [update_self, uint64_int64]
            omega)
        (fun u hu => by
          have hut : u ≠ t := by
            rintro rfl
            exact hinact.1 hu
          simp [hut])
      have hsort := h.overflow.insert (t, (uint64 (c + d) : ℤ))
      rw [overflowKeys, expiries, ← hkeys] at hsort
      simpa [overflowKeys, expiries, filter_append, hout, hexp] using hsort

theorem Holds.remove (ht : t ∈ p.map Prod.fst) :
    Holds (zTimeoutQRemove s c t).1 c (dropKey t p) := by
  obtain ⟨⟨t, e⟩, hmem, rfl⟩ := mem_map.1 ht
  have hdrop : ∀ {P : τ × ℤ → Prop}, (∀ x ∈ p, P x) → ∀ x ∈ dropKey t p, P x :=
    fun hP x hx => hP x (mem_dropKey.1 hx).1
  have hnodup := nodup_dropKey (t := t) h.nodup
  rcases h.cases hmem with ⟨i, hi, rfl, hb⟩ | ⟨hout, hov⟩
  · have hidx := h.buckets.uint64_index hi hb
    simp only [zTimeoutQRemove, hidx, if_pos hi]
    refine ⟨h.aligned, h.base_le, h.lt_end, hnodup, hdrop h.due, hdrop h.bound, hdrop h.counter,
      h.buckets.take h.nodup hi hb, ?_⟩
    have hsort := h.overflow
    rwa [← filter_dropKey_of_not h.nodup hmem (by simp; omega)] at hsort
  · have hkey : (uint64 (s.dticks t) : ℤ) = e := by
      have := (mem_map.1 hov)
      obtain ⟨u, -, heq⟩ := this
      obtain ⟨rfl, rfl⟩ := Prod.mk.inj heq
      rfl
    have hbig : ¬uint64 (s.dticks t) < W.lists := by omega
    have hnd : ((overflowKeys s).map Prod.fst).Nodup :=
      h.overflow.nodup_iff.2 (h.nodup.sublist (filter_sublist.map _))
    have hlist : (overflowKeys s).map Prod.fst = s.overflow := by
      simp [overflowKeys, expiries, comp_def]
    simp only [zTimeoutQRemove, if_neg hbig]
    refine ⟨h.aligned, h.base_le, h.lt_end, hnodup, hdrop h.due, hdrop h.bound, hdrop h.counter,
      ⟨fun j hj => ?_, h.buckets.index, h.buckets.bits⟩, ?_⟩
    · rw [filter_dropKey_of_not h.nodup hmem (by simp; omega)]
      exact h.buckets.bucket j hj
    have hkeys : overflowKeys { s with overflow := s.overflow.erase t } =
        dropKey t (overflowKeys s) := by
      rw [hlist] at hnd
      simp only [overflowKeys, expiries, dropKey, filter_map, hnd.erase_eq_filter]
      congr 1
      refine filter_congr fun u _ => ?_
      rw [Bool.eq_iff_iff]
      simp
    rw [hkeys]
    have hsort := h.overflow.dropKey t
    rwa [dropKey, dropKey, filter_comm] at hsort

theorem Holds.popDue_none (hpop : s.bucket (W.offset c) = []) : ∀ x ∈ p, (c : ℤ) < x.2 := by
  have hbase := h.base_le
  rintro ⟨t, e⟩ hx
  have hle := h.due _ hx
  simp only at hle ⊢
  rcases h.cases hx with ⟨i, hi, rfl, hb⟩ | ⟨hout, -⟩
  · by_contra hlt
    have : i = W.offset c := by rw [h.offset_now]; omega
    rw [← this] at hpop
    simp [hpop] at hb
  · have := h.lt_end
    omega

theorem Holds.popDue_some (hpop : s.bucket (W.offset c) = t :: ts) :
    (t, (c : ℤ)) ∈ p ∧ oldestFirst p (t, c) ∧
      Holds (takeBucket s (W.offset c) ts) c (dropKey t p) := by
  have hbase := h.base_le
  have hend := h.lt_end
  have hoff := h.offset_now
  have hi : W.offset c < W.lists := by omega
  have hnow : (s.cursorBase : ℤ) + (W.offset c : ℕ) = c := by omega
  have ht : t ∈ s.bucket (W.offset c) := by rw [hpop]; exact mem_cons_self
  have hmem := (h.buckets.mem_bucket hi).1 ht
  rw [hnow] at hmem
  have hrem := h.remove (mem_map_of_mem hmem)
  have hidx := h.buckets.uint64_index hi ht
  refine ⟨hmem, ?_, ?_⟩
  · have hfilter := h.buckets.bucket _ hi
    rw [hpop, hnow] at hfilter
    rw [oldestFirst, ← head?_filter]
    cases hf : p.filter (hasKey (c : ℤ)) with
    | nil => simp [hf] at hfilter
    | cons x xs =>
      have hx : x ∈ p.filter (hasKey (c : ℤ)) := by rw [hf]; exact mem_cons_self
      have hx2 : x.2 = c := by simpa using (mem_filter.1 hx).2
      rw [hf] at hfilter
      rw [head?_cons, (cons.inj hfilter).1, ← hx2]
  · simpa [zTimeoutQRemove, hidx, hi, hpop] using hrem

end

theorem expiries_congr (h : ∀ u ∈ l, δ u = δ' u) :
    expiries δ l = expiries δ' l :=
  map_congr_left fun u hu => by rw [h u hu]

theorem migrate_spec (hb : InBuckets s q) (ha : s.cursorBase % W.lists = 0)
    (hn : (q.map Prod.fst ++ l).Nodup) (hs : (expiries s.dticks l).Pairwise (fun x y => x.2 ≤ y.2))
    (hge : ∀ t ∈ l, s.cursorBase ≤ uint64 (s.dticks t)) :
    (migrate l s).cursorBase = s.cursorBase ∧
      InBuckets (migrate l s)
        (q ++ (expiries s.dticks l).filter (fun x => !beyond W s.cursorBase x)) ∧
      overflowKeys (migrate l s) = (expiries s.dticks l).filter (beyond W s.cursorBase) := by
  induction l generalizing s q with
  | nil => exact ⟨rfl, by simpa [expiries] using ⟨hb.bucket, hb.index, hb.bits⟩, rfl⟩
  | cons t ts ih =>
    rw [forall_mem_cons] at hge
    simp only [expiries, map_cons, pairwise_cons] at hs
    by_cases hin : uint64 (s.dticks t) < s.cursorBase + W.lists
    · have hoff : W.offset (uint64 (s.dticks t)) = uint64 (s.dticks t) - s.cursorBase := by
        rw [W.offset_eq, mod_of_aligned ha hge.1 hin]
      have htq : t ∉ q.map Prod.fst := fun hm =>
        (nodup_append'.1 hn).2.2 hm mem_cons_self
      have htts : t ∉ ts := (nodup_cons.1 (nodup_append'.1 hn).2.1).1
      have happ := hb.append htq (i := W.offset (uint64 (s.dticks t))) (by omega)
      have hsame : ∀ u ∈ ts,
          (appendBucket s t (W.offset (uint64 (s.dticks t)))).dticks u = s.dticks u := by
        intro u hu
        have hut : u ≠ t := by
          rintro rfl
          exact htts hu
        simp [appendBucket, hut]
      have hexp := expiries_congr hsame
      have hkey : (s.cursorBase : ℤ) + (W.offset (uint64 (s.dticks t)) : ℕ) =
          uint64 (s.dticks t) := by omega
      rw [hkey] at happ
      obtain ⟨h1, h2, h3⟩ := ih happ ha (by simpa using hn) (by rw [hexp]; exact hs.2)
        (fun u hu => by rw [hsame u hu]; exact hge.2 u hu)
      have hnb : beyond W s.cursorBase (t, (uint64 (s.dticks t) : ℤ)) = false := by
        rw [Bool.eq_false_iff, Ne, beyond_iff]
        omega
      rw [hexp] at h2 h3
      simp only [migrate, if_pos hin, expiries, map_cons, filter_cons, hnb]
      refine ⟨h1, ?_, h3⟩
      rwa [append_assoc] at h2
    · -- The list is sorted, so nothing behind the first later entry belongs to the window.
      have hall : ∀ x ∈ expiries s.dticks (t :: ts), beyond W s.cursorBase x = true := by
        rintro x hx
        rcases mem_cons.1 hx with rfl | hx
        · simp only [beyond_iff]
          omega
        · have := hs.1 x hx
          simp only [beyond_iff]
          omega
      simp only [migrate, if_neg hin]
      refine ⟨trivial, ?_, ?_⟩
      · rw [filter_eq_nil_iff.2 fun x hx => by simp [hall x hx], append_nil]
        exact ⟨hb.bucket, hb.index, hb.bits⟩
      · rw [filter_eq_self.2 hall]
        rfl

theorem Holds.buckets_empty (h : Holds s c p) (hf : ∀ x ∈ p, (c : ℤ) < x.2)
    (hd : (dt : ℤ) ≤ zTimeoutQNextGap s c) (hout : s.cursorBase + W.lists ≤ c + dt) :
    ∀ i < W.lists, s.bucket i = [] := by
  intro i hi
  rw [eq_nil_iff_forall_not_mem]
  intro t ht
  have := (h.nextGap hf).2.2 _ ((h.buckets.mem_bucket hi).1 ht)
  simp only at this
  omega

theorem Holds.advance (h : Holds s c p) {dt : ℕ} (hf : ∀ x ∈ p, (c : ℤ) < x.2)
    (hd : (dt : ℤ) ≤ zTimeoutQNextGap s c) : Holds (zTimeoutQAdvance s c dt) (c + dt) p := by
  have hgap := (h.nextGap hf).2.2
  have hdue : ∀ x ∈ p, ((c + dt : ℕ) : ℤ) ≤ x.2 := by
    intro x hx
    have := hgap x hx
    omega
  have hbound : ∀ x ∈ p, x.2 - ((c + dt : ℕ) : ℤ) ≤ int64Max := by
    intro x hx
    have := h.bound x hx
    omega
  have hnew : ((c : ℤ) + dt).toNat = c + dt := by omega
  by_cases hin : c + dt < s.cursorBase + W.lists
  · simp only [zTimeoutQAdvance, hnew, if_pos hin]
    exact ⟨h.aligned, h.base_le.trans (Nat.le_add_right _ _), hin, h.nodup, hdue, hbound, h.counter,
      h.buckets, h.overflow⟩
  have hempty := h.buckets_empty hf hd (by omega)
  have hL := W.lists_pos
  have hoff := W.offset_eq (c + dt)
  have hlt : (c + dt) % W.lists < W.lists := Nat.mod_lt _ hL
  have halign : (c + dt - W.offset (c + dt)) % W.lists = 0 := by
    rw [hoff]
    exact Nat.sub_mod_eq_zero_of_mod_eq (Nat.mod_mod _ _).symm
  -- Nothing is in a bucket, so all of `p` is in the overflow list.
  have hfilter : p.filter (beyond W s.cursorBase) = p := by
    rw [filter_eq_self]
    rintro ⟨t, e⟩ hx
    rcases h.cases hx with ⟨i, hi, -, hb⟩ | ⟨hout, -⟩
    · simp [hempty i hi] at hb
    · simpa using hout
  have hsort := h.overflow
  rw [hfilter] at hsort
  have hlist : (overflowKeys s).map Prod.fst = s.overflow := by
    simp [overflowKeys, expiries, comp_def]
  have hstart : InBuckets { s with
      cursorBase := c + dt - W.offset (c + dt), bucketBits := 0 } [] :=
    ⟨by simpa using hempty, h.buckets.index, by simpa using hempty⟩
  obtain ⟨h1, h2, h3⟩ := migrate_spec hstart halign
    (by simpa [hlist] using hsort.nodup_iff.2 h.nodup) hsort.sorted
    (fun t ht => by
      have := hdue _ ((hsort.mem_iff (t, (uint64 (s.dticks t) : ℤ))).1
        (mem_map_of_mem (f := fun t => (t, (uint64 (s.dticks t) : ℤ))) ht))
      simp only at this ⊢
      omega)
  simp only [zTimeoutQAdvance, hnew, if_neg hin]
  simp only [nil_append] at h1 h2 h3
  refine ⟨?_, ?_, ?_, h.nodup, hdue, hbound, h.counter, ?_, ?_⟩
  · rw [h1]; exact halign
  · rw [h1]; exact Nat.sub_le _ _
  · rw [h1]; omega
  · refine ⟨fun i hi => (h2.bucket i hi).trans (congrArg _ (.symm ?_)), h2.index, h2.bits⟩
    rw [h1, ← hsort.stable, filter_filter]
    refine filter_congr fun x hx => ?_
    by_cases hkey : x.2 = ((c + dt - W.offset (c + dt) : ℕ) : ℤ) + i
    · have : ¬beyond W (c + dt - W.offset (c + dt)) x = true := by
        simp only [beyond_iff]
        omega
      simp [this]
    · have : ¬hasKey (((c + dt - W.offset (c + dt) : ℕ) : ℤ) + i) x = true := by simpa using hkey
      simp [this]
  · rw [h3, h1]
    exact hsort.filter _

theorem refines : Refines (drainOps W τ) (fun c d => (c : ℤ) + d < 2 ^ 64) oldestFirst Holds where
  init := ⟨rfl, le_rfl, by simpa [timeoutBucketInit] using W.lists_pos, .nil, by simp, by simp, by simp,
    ⟨by simp [timeoutBucketInit], by simp [timeoutBucketInit], by simp [timeoutBucketInit]⟩, .nil⟩
  inactive t h := by simpa using h.inactive
  nodup h := h.nodup
  due h := h.due
  insert h ht h0 hm hc hins := by
    obtain rfl := congrArg Prod.fst (Option.some.inj hins)
    exact h.insert ht h0 hm hc
  remove h ht := h.remove ht
  gap h hf := h.nextGap hf
  advance h hf _ hd := h.advance hf hd
  popNone {s c p} h hpop := by
    refine h.popDue_none ?_
    cases hb : s.bucket (W.offset c) with
    | nil => rfl
    | cons t ts => simp [zTimeoutQPopDue, hb] at hpop
  popSome {s c p t s'} h hpop := by
    cases hb : s.bucket (W.offset c) with
    | nil => simp [zTimeoutQPopDue, hb] at hpop
    | cons u us =>
      obtain ⟨rfl, rfl⟩ : u = t ∧ takeBucket s (W.offset c) us = s' := by
        simpa [zTimeoutQPopDue, hb] using hpop
      exact h.popDue_some hb

end Holds

end ZephyrRtos.Timeout.Bucket
