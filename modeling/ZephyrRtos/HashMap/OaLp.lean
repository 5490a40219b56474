import Mathlib.Data.List.GetD
import ZephyrRtos.HashMap.Config
import ZephyrRtos.Lib.Probe
import ZephyrRtos.Lib.Run

/-! The hash map with open addressing and linear probing (`lib/hash/hash_map_oa_lp.c`). -/

namespace ZephyrRtos.HashMap.OaLp

open Lib

/-- `struct oalp_entry`: the key and the value are read in the state `USED` only. -/
inductive Bucket
  | unused
  | used (key value : UInt64)
  | tombstone
  deriving DecidableEq

namespace Bucket

def item : Bucket → Option (UInt64 × UInt64)
  | .used key value => some (key, value)
  | _ => none

def accepts (key : UInt64) (usedOk unusedOk tombstoneOk : Bool) : Bucket → Bool
  | .used key' _ => usedOk && key' == key
  | .unused => unusedOk
  | .tombstone => tombstoneOk

end Bucket

/-- `struct sys_hashmap_oa_lp_data`; the number of buckets is the length of the array. -/
structure Data where
  buckets : List Bucket
  size : ℕ
  nTombstones : ℕ
  deriving DecidableEq

namespace Data

def nBuckets (d : Data) : ℕ := d.buckets.length

def bucket (d : Data) (i : ℕ) : Bucket := d.buckets.getD i .unused

def empty : Data := ⟨[], 0, 0⟩

def findLoop (buckets : List Bucket) (accepts : Bucket → Bool) : ℕ → ℕ → Option ℕ
  | 0, _ => none
  | left + 1, j =>
    let j := j &&& (buckets.length - 1)
    if accepts (buckets.getD j .unused) then some j else findLoop buckets accepts left (j + 1)

def find (hash : UInt64 → UInt32) (d : Data) (key : UInt64)
    (usedOk unusedOk tombstoneOk : Bool) : Option ℕ :=
  findLoop d.buckets (Bucket.accepts key usedOk unusedOk tombstoneOk) d.nBuckets (hash key).toNat

/-- `sys_hashmap_oa_lp_insert_no_rehash`: 1 is returned with no old value, 0 with one. There is no
result if the search returns `NULL`. -/
def insertNoRehash (hash : UInt64 → UInt32) (d : Data) (key value : UInt64) :
    Option (Option UInt64 × Data) := do
  let i ← find hash d key true true true
  let buckets := d.buckets.set i (.used key value)
  match d.bucket i with
  | .tombstone => return (none, ⟨buckets, d.size + 1, d.nTombstones - 1⟩)
  | .used _ old => return (some old, ⟨buckets, d.size, d.nTombstones⟩)
  | .unused => return (none, ⟨buckets, d.size + 1, d.nTombstones⟩)

/-- The loop of `sys_hashmap_oa_lp_rehash` over the old buckets, with `j` entries behind it. -/
def reinsert (hash : UInt64 → UInt32) (oldSize : ℕ) : List Bucket → ℕ → Data → Option Data
  | [], _, d => some d
  | b :: bs, j, d =>
    if j < oldSize then
      match b with
      | .used key value => do
        let (_, d) ← insertNoRehash hash d key value
        reinsert hash oldSize bs (j + 1) d
      | _ => reinsert hash oldSize bs j d
    else some d

/-- `sys_hashmap_oa_lp_rehash`; `alloc` says whether the allocation succeeds. -/
def rehash (c : Config) (hash : UInt64 → UInt32) (alloc : Bool) (d : Data) (grow : Bool) :
    Option (Except Errno Data) :=
  let n := c.newNBuckets grow d.size d.nBuckets
  if !c.shouldRehash grow d.size d.nBuckets d.nTombstones then some (.ok d)
  else if d.size ≠ c.sizeMax ∧ d.size = c.maxSize then some (.error .enospc)
  else if !alloc ∧ n ≠ 0 then some (.error .enomem)
  else do
    let d ← reinsert hash d.size d.buckets 0 ⟨List.replicate n .unused, 0, d.nTombstones⟩
    return .ok d

def insert (c : Config) (hash : UInt64 → UInt32) (alloc : Bool) (d : Data) (key value : UInt64) :
    Option (Except Errno (Option UInt64) × Data) := do
  match ← d.rehash c hash alloc true with
  | .error e => return (.error e, d)
  | .ok d =>
    let (old, d) ← d.insertNoRehash hash key value
    return (.ok old, d)

def get (hash : UInt64 → UInt32) (d : Data) (key : UInt64) : Option UInt64 := do
  let i ← find hash d key true true false
  let (_, value) ← (d.bucket i).item
  return value

/-- `sys_hashmap_oa_lp_remove`, which ignores that a rehash failed. -/
def remove (c : Config) (hash : UInt64 → UInt32) (alloc : Bool) (d : Data) (key : UInt64) :
    Option (Option UInt64 × Data) :=
  match find hash d key true true false with
  | none => some (none, d)
  | some i =>
    match d.bucket i with
    | .used _ value => do
      let d := ⟨d.buckets.set i .tombstone, d.size - 1, d.nTombstones + 1⟩
      match ← rehash c hash alloc d false with
      | .error _ => return (some value, d)
      | .ok d => return (some value, d)
    | _ => some (none, d)

/-- The entries that `sys_hashmap_oa_lp_clear` gives to the callback. -/
def cleared (size : ℕ) : List Bucket → ℕ → List (UInt64 × UInt64)
  | [], _ => []
  | b :: bs, j =>
    if j < size then
      match b.item with
      | some item => item :: cleared size bs (j + 1)
      | none => cleared size bs j
    else []

end Data

inductive Call
  | insert (key value : UInt64) (alloc : Bool)
  | remove (key : UInt64) (alloc : Bool)
  | get (key : UInt64)
  | clear
  deriving DecidableEq

def Data.step (c : Config) (hash : UInt64 → UInt32) (d : Data) : Call → Option (Data × List Event)
  | .insert key value alloc => do
    match ← d.insert c hash alloc key value with
    | (.ok old, d) => return (d, [.did (.insert key value old)])
    | (.error e, d) => return (d, [.refused key e])
  | .remove key alloc => do
    let (old, d) ← d.remove c hash alloc key
    return (d, [.did (.remove key old)])
  | .get key => some (d, [.did (.get key (d.get hash key))])
  | .clear => some (.empty, [.did (.visit (Data.cleared d.size d.buckets 0)), .did .clear])

def oaLp (c : Config) (hash : UInt64 → UInt32) : System Data Call Event := ⟨.empty, Data.step c hash⟩

open List
variable {hash : UInt64 → UInt32} {d d' : Data} {m : FiniteMap UInt64 UInt64} {key value : UInt64}
  {i j t : ℕ} {b : Bucket}

namespace Data

def items (d : Data) : List (UInt64 × UInt64) := d.buckets.filterMap Bucket.item

def tombstones (d : Data) : ℕ := d.buckets.count .tombstone

def probed (hash : UInt64 → UInt32) (d : Data) (key : UInt64) (t : ℕ) : ℕ :=
  probe d.nBuckets (hash key).toNat t

def put (d : Data) (i : ℕ) (b : Bucket) (size nTombstones : ℕ) : Data :=
  ⟨d.buckets.set i b, size, nTombstones⟩

section Put

variable {size nTombstones : ℕ}

@[simp] theorem nBuckets_put : (d.put i b size nTombstones).nBuckets = d.nBuckets := length_set

theorem bucket_put (hi : i < d.nBuckets) :
    (d.put i b size nTombstones).bucket j = if i = j then b else d.bucket j := by
  unfold put bucket
  rw [getD_eq_getElem?_getD, getElem?_set]
  split
  · next h => subst h; simp [show i < d.buckets.length from hi]
  · rfl

theorem exists_split (hi : i < d.nBuckets) : ∃ l r, d.buckets = l ++ d.bucket i :: r ∧
    ∀ b, d.buckets.set i b = l ++ b :: r := by
  refine ⟨d.buckets.take i, d.buckets.drop (i + 1), ?_, fun b => ?_⟩
  · have hlt : i < d.buckets.length := hi
    rw [bucket, getD_eq_getElem _ _ hlt, getElem_cons_drop, take_append_drop]
  · exact set_eq_take_append_cons_drop.trans (if_pos hi)

theorem items_put (b : Bucket) (size nTombstones : ℕ) (hi : i < d.nBuckets) : ∃ rest,
    d.items.Perm ((d.bucket i).item.toList ++ rest) ∧
    (d.put i b size nTombstones).items.Perm (b.item.toList ++ rest) := by
  obtain ⟨l, r, heq, hset⟩ := exists_split hi
  refine ⟨l.filterMap Bucket.item ++ r.filterMap Bucket.item, ?_, ?_⟩
  · rw [items, heq]
    cases h : (d.bucket i).item <;> simp [h]
  · rw [items, put, hset]
    cases h : b.item <;> simp [h]

theorem tombstones_put (b : Bucket) (size nTombstones : ℕ) (hi : i < d.nBuckets) :
    (d.put i b size nTombstones).tombstones + [d.bucket i].count .tombstone =
      d.tombstones + [b].count .tombstone := by
  obtain ⟨l, r, heq, hset⟩ := exists_split hi
  simp only [tombstones, put, hset]
  rw [heq]
  simp only [count_append, count_cons]
  omega

end Put

end Data

/-- The table of the map `m`: each key is in one place, which a search for it comes to before any
unused bucket. -/
structure Table (hash : UInt64 → UInt32) (d : Data) (m : FiniteMap UInt64 UInt64) : Prop where
  pow : d.nBuckets ≠ 0 → ∃ a, d.nBuckets = 2 ^ a
  lists : Lists d.items m
  size_eq : d.size = d.items.length
  reach : ∀ i key value, d.bucket i = .used key value → ∃ t < d.nBuckets,
    d.probed hash key t = i ∧ ∀ s < t, d.bucket (d.probed hash key s) ≠ .unused
  tombs : d.tombstones ≤ d.nTombstones

namespace Data

theorem lt_of_bucket (h : d.bucket i ≠ .unused) : i < d.nBuckets := by
  apply Classical.byContradiction
  intro hn
  exact h (getD_eq_default _ _ (Nat.le_of_not_lt hn))

theorem mem_items_iff : (key, value) ∈ d.items ↔ ∃ i, d.bucket i = .used key value := by
  unfold items
  rw [mem_filterMap]
  constructor
  · rintro ⟨b, hmem, hb⟩
    obtain ⟨i, hi, rfl⟩ := getElem_of_mem hmem
    refine ⟨i, ?_⟩
    rw [bucket]
    cases h : d.buckets[i] <;> simp_all [Bucket.item]
  · rintro ⟨i, hi⟩
    have hlt : i < d.nBuckets := lt_of_bucket (by simp [hi])
    refine ⟨d.bucket i, ?_, by simp [hi, Bucket.item]⟩
    rw [bucket, getD_eq_getElem _ _ hlt]
    exact getElem_mem hlt

theorem findLoop_eq_some {buckets : List Bucket} {accepts : Bucket → Bool}
    (hn : buckets.length = 2 ^ a) (ht : t < left)
    (hacc : accepts (buckets.getD (probe (2 ^ a) j t) .unused))
    (hbefore : ∀ s < t, ¬ accepts (buckets.getD (probe (2 ^ a) j s) .unused)) :
    findLoop buckets accepts left j = some (probe (2 ^ a) j t) := by
  induction left generalizing j t with
  | zero => exact absurd ht (Nat.not_lt_zero _)
  | succ left ih =>
    have hand : j &&& (buckets.length - 1) = probe (2 ^ a) j 0 := by
      rw [hn, Nat.and_two_pow_sub_one_eq_mod, probe, add_zero]
    have hnext : ∀ s, probe (2 ^ a) (probe (2 ^ a) j 0 + 1) s = probe (2 ^ a) j (s + 1) := by
      intro s
      unfold probe
      rw [add_assoc, Nat.mod_add_mod, Nat.add_zero, add_comm 1 s]
    unfold findLoop
    simp only [hand]
    cases t with
    | zero => rw [if_pos hacc]
    | succ t =>
      rw [if_neg (hbefore 0 (Nat.succ_pos t)), ih (Nat.lt_of_succ_lt_succ ht), hnext]
      · rwa [hnext]
      · intro s hs
        rw [hnext]
        exact hbefore (s + 1) (Nat.succ_lt_succ hs)

theorem findLoop_eq_none {buckets : List Bucket} {accepts : Bucket → Bool}
    (hall : ∀ i < buckets.length, ¬ accepts (buckets.getD i .unused)) (hpos : 0 < buckets.length) :
    findLoop buckets accepts left j = none := by
  induction left generalizing j with
  | zero => rfl
  | succ left ih =>
    have hle : j &&& (buckets.length - 1) ≤ buckets.length - 1 := Nat.and_le_right
    unfold findLoop
    rw [if_neg (hall _ (by omega)), ih]

theorem find_eq_some (hpow : d.nBuckets ≠ 0 → ∃ a, d.nBuckets = 2 ^ a)
    (h : FirstProbe d.nBuckets (hash key).toNat
      (fun i => Bucket.accepts key u un tb (d.bucket i) = true) t) :
    find hash d key u un tb = some (d.probed hash key t) := by
  obtain ⟨a, ha⟩ := hpow (lt_of_le_of_lt (Nat.zero_le _) h.lt).ne'
  obtain ⟨hlt, hacc, hbefore⟩ := h
  unfold find probed
  rw [ha] at hlt hacc hbefore ⊢
  exact findLoop_eq_some ha hlt hacc hbefore

abbrev stops (key : UInt64) (b : Bucket) : Bool := b.accepts key true true false

end Data

namespace Table

open Data

section

variable (h : Table hash d m)
include h

theorem unique (hi : d.bucket i = .used key v) (hj : d.bucket j = .used key w) : i = j := by
  by_cases hij : i = j
  · exact hij
  exfalso
  have hi' : i < d.nBuckets := lt_of_bucket (by simp [hi])
  obtain ⟨rest, hold, hnew⟩ := items_put .unused 0 0 hi'
  have hmem : (key, w) ∈ rest := by
    have hput : (key, w) ∈ (d.put i .unused 0 0).items := by
      rw [mem_items_iff]
      exact ⟨j, by rw [bucket_put hi', if_neg hij, hj]⟩
    simpa [Bucket.item] using hnew.mem_iff.1 hput
  have hnd := (h.lists.perm hold).nodup
  rw [hi] at hnd
  simp only [Bucket.item, Option.toList_some, cons_append, map_cons, nodup_cons, mem_map] at hnd
  exact hnd.1 ⟨(key, w), hmem, rfl⟩

theorem lookup_iff : m.lookup key = some value ↔ ∃ i, d.bucket i = .used key value := by
  rw [← h.lists.mem_iff, mem_items_iff]

theorem find_used (hi : d.bucket i = .used key value) :
    find hash d key true true false = some i := by
  obtain ⟨t, ht, rfl, hbefore⟩ := h.reach i key value hi
  apply find_eq_some h.pow
  refine ⟨ht, ?_, fun s hs hacc => ?_⟩
  · show stops key (d.bucket (d.probed hash key t)) = true
    simp [hi, Bucket.accepts]
  change stops key (d.bucket (d.probed hash key s)) = true at hacc
  cases hb : d.bucket (d.probed hash key s) with
  | unused => exact hbefore s hs hb
  | tombstone => simp [hb, Bucket.accepts] at hacc
  | used key' value' =>
    obtain rfl : key' = key := by simpa [hb, Bucket.accepts] using hacc
    have heq := h.unique hb hi
    exact absurd (probe_inj (lt_trans hs ht) ht heq) hs.ne

theorem find_absent (hkey : m.lookup key = none) :
    find hash d key true true false = none ∨
    ∃ i, find hash d key true true false = some i ∧ d.bucket i = .unused := by
  have hacc : ∀ i, stops key (d.bucket i) = true → d.bucket i = .unused := by
    intro i hi
    cases hb : d.bucket i with
    | unused => rfl
    | tombstone => simp [hb, Bucket.accepts] at hi
    | used key' value =>
      obtain rfl : key' = key := by simpa [hb, Bucket.accepts] using hi
      rw [h.lookup_iff.2 ⟨i, hb⟩] at hkey
      simp at hkey
  by_cases hex : ∃ i, i < d.nBuckets ∧ stops key (d.bucket i) = true
  · obtain ⟨i, hi, hstop⟩ := hex
    obtain ⟨t, ht⟩ := exists_firstProbe
      (P := fun i => stops key (d.bucket i) = true) hi hstop
    exact .inr ⟨_, find_eq_some h.pow ht, hacc _ ht.holds⟩
  left
  by_cases hn : d.nBuckets = 0
  · unfold find
    rw [hn]
    rfl
  · exact findLoop_eq_none (fun i hi hstop => hex ⟨i, hi, hstop⟩) (pos_of_ne_zero hn)

theorem get_eq : d.get hash key = m.lookup key := by
  unfold Data.get
  cases hv : m.lookup key with
  | none =>
    obtain hf | ⟨i, hf, hi⟩ := h.find_absent hv
    · simp [hf]
    · simp [hf, hi, Bucket.item]
  | some value =>
    obtain ⟨i, hi⟩ := h.lookup_iff.1 hv
    simp [h.find_used hi, hi, Bucket.item]

theorem put {m' : FiniteMap UInt64 UInt64} {size nTombstones : ℕ} (ht : t < d.nBuckets)
    (hb : b = .tombstone ∨ ∃ value, b = .used key value)
    (hbefore : ∀ s < t, d.bucket (d.probed hash key s) ≠ .unused)
    (hlists : Lists (d.put (d.probed hash key t) b size nTombstones).items m')
    (hsize : size = (d.put (d.probed hash key t) b size nTombstones).items.length)
    (htombs : (d.put (d.probed hash key t) b size nTombstones).tombstones ≤ nTombstones) :
    Table hash (d.put (d.probed hash key t) b size nTombstones) m' where
  pow := by
    rw [nBuckets_put]
    exact h.pow
  lists := hlists
  size_eq := hsize
  tombs := htombs
  reach := by
    have hi : d.probed hash key t < d.nBuckets := probe_lt (by omega)
    have hprobed : ∀ k s, (d.put (d.probed hash key t) b size nTombstones).probed hash k s =
        d.probed hash k s := fun k s => by rw [probed, nBuckets_put, probed]
    -- a bucket that was in use or dead is not unused afterwards, and neither is the one put there
    have hkeep : ∀ j, d.bucket j ≠ .unused →
        (d.put (d.probed hash key t) b size nTombstones).bucket j ≠ .unused := by
      intro j hj
      rw [bucket_put hi]
      split
      · obtain rfl | ⟨-, rfl⟩ := hb <;> simp
      · exact hj
    intro j key' value' hj
    rw [bucket_put hi] at hj
    simp only [nBuckets_put, hprobed]
    split at hj
    · next heq =>
      obtain hb | ⟨value, hb⟩ := hb
      · exact absurd (hj.symm.trans hb) nofun
      · obtain ⟨rfl, rfl⟩ := Bucket.used.inj (hj.symm.trans hb)
        exact ⟨t, ht, heq, fun s hs => hkeep _ (hbefore s hs)⟩
    · obtain ⟨t', ht', heq, hbefore'⟩ := h.reach j key' value' hj
      exact ⟨t', ht', heq, fun s hs => hkeep _ (hbefore' s hs)⟩

end

end Table

namespace Data

/-- A search for `key` meets a tombstone before the key: an insertion will not see the key. -/
def Masked (hash : UInt64 → UInt32) (d : Data) (key : UInt64) : Prop :=
  ∃ t < d.nBuckets, (d.bucket (d.probed hash key t)).accepts key true false false ∧
    ∃ s < t, d.bucket (d.probed hash key s) = .tombstone

instance : Decidable (d.Masked hash key) :=
  inferInstanceAs (Decidable (∃ t < _, _ ∧ ∃ s < t, _))

theorem exists_free (h : d.items.length < d.nBuckets) : ∃ i < d.nBuckets, (d.bucket i).item = none := by
  apply Classical.byContradiction
  intro hn
  have hall : ∀ b ∈ d.buckets, b.item.isSome := by
    intro b hb
    obtain ⟨i, hi, rfl⟩ := getElem_of_mem hb
    rw [Option.isSome_iff_ne_none]
    intro hnone
    apply hn
    refine ⟨i, hi, ?_⟩
    rw [bucket, getD_eq_getElem _ _ hi, hnone]
  have hlen : d.items.length = d.buckets.length := by
    rwa [items, length_filterMap_eq_countP, countP_eq_length]
  exact absurd h (by rw [hlen]; exact lt_irrefl _)

end Data

namespace Table

open Data

theorem exists_slot (h : Table hash d m) (hroom : d.items.length < d.nBuckets)
    (hmask : ¬ d.Masked hash key) : ∃ t < d.nBuckets,
      find hash d key true true true = some (d.probed hash key t) ∧
      (∀ s < t, d.bucket (d.probed hash key s) ≠ .unused) ∧
      Bucket.accepts key true true true (d.bucket (d.probed hash key t)) = true ∧
      ((d.bucket (d.probed hash key t)).item = none → m.lookup key = none) := by
  obtain ⟨i, hi, hfree⟩ := exists_free hroom
  have hacc : Bucket.accepts key true true true (d.bucket i) = true := by
    cases hb : d.bucket i <;> simp_all [Bucket.accepts, Bucket.item]
  obtain ⟨t, hfirst⟩ := exists_firstProbe
    (P := fun i => Bucket.accepts key true true true (d.bucket i) = true) hi hacc
  refine ⟨t, hfirst.lt, find_eq_some h.pow hfirst, fun s hs hun => ?_, hfirst.holds,
    fun hnone => ?_⟩
  · apply hfirst.before s hs
    change Bucket.accepts key true true true (d.bucket (d.probed hash key s)) = true
    simp [hun, Bucket.accepts]
  rw [Option.eq_none_iff_forall_ne_some]
  intro v hv
  obtain ⟨j, hj⟩ := h.lookup_iff.1 hv
  obtain ⟨t', ht', rfl, hbef'⟩ := h.reach j key v hj
  have hle : t < t' := by
    obtain hlt | heq | hgt := lt_trichotomy t t'
    · exact hlt
    · subst heq
      simp [hj, Bucket.item] at hnone
    · exact absurd (by
        change Bucket.accepts key true true true (d.bucket (d.probed hash key t')) = true
        simp [hj, Bucket.accepts]) (hfirst.before t' hgt)
  have htomb : d.bucket (d.probed hash key t) = .tombstone := by
    cases hb : d.bucket (d.probed hash key t) <;> simp_all [Bucket.item]
  exact hmask ⟨t', ht', by simp [hj, Bucket.accepts], t, hle, htomb⟩

theorem insertNoRehash (h : Table hash d m) (key value : UInt64)
    (hroom : d.items.length < d.nBuckets)
    (hmask : ¬ d.Masked hash key) : ∃ d', d.insertNoRehash hash key value = some (m.lookup key, d') ∧
      Table hash d' (m.insert key value) ∧ d'.nBuckets = d.nBuckets ∧
      d'.nTombstones + d.tombstones = d.nTombstones + d'.tombstones ∧
      d'.nTombstones ≤ d.nTombstones := by
  obtain ⟨t, ht, hfind, hbefore, hacc, habsent⟩ := h.exists_slot hroom hmask
  have hp : d.probed hash key t < d.nBuckets := probe_lt (lt_of_le_of_lt (Nat.zero_le _) ht)
  have hadd : ∀ nT, (d.bucket (d.probed hash key t)).item = none →
      (d.put (d.probed hash key t) (.used key value) (d.size + 1) nT).tombstones ≤ nT →
      Table hash (d.put (d.probed hash key t) (.used key value) (d.size + 1) nT)
        (m.insert key value) := by
    intro nT hnone htombs
    obtain ⟨rest, hold, hnew⟩ := items_put (.used key value) (d.size + 1) nT hp
    rw [hnone] at hold
    apply h.put ht (.inr ⟨value, rfl⟩) hbefore
    · exact ((h.lists.perm hold).cons (habsent hnone)).perm hnew.symm
    · rw [hnew.length_eq, h.size_eq, hold.length_eq]
      simp [Bucket.item]
    · exact htombs
  have hcount : ∀ size nT,
      (d.put (d.probed hash key t) (.used key value) size nT).tombstones +
        [d.bucket (d.probed hash key t)].count .tombstone = d.tombstones := by
    intro size nT
    exact tombstones_put (.used key value) size nT hp
  have htombs := h.tombs
  unfold Data.insertNoRehash
  simp only [hfind, Option.bind_eq_bind, Option.bind_some]
  cases hb : d.bucket (d.probed hash key t) with
  | unused =>
    have hc := hcount (d.size + 1) d.nTombstones
    rw [hb, show [Bucket.unused].count .tombstone = 0 from rfl] at hc
    refine ⟨_, by rw [habsent (by simp [hb, Bucket.item])]; rfl,
      hadd d.nTombstones (by simp [hb, Bucket.item]) (by omega), length_set, ?_, le_refl _⟩
    exact congrArg _ hc.symm
  | tombstone =>
    have hc := hcount (d.size + 1) (d.nTombstones - 1)
    rw [hb, show [Bucket.tombstone].count .tombstone = 1 from rfl] at hc
    refine ⟨_, by rw [habsent (by simp [hb, Bucket.item])]; rfl,
      hadd (d.nTombstones - 1) (by simp [hb, Bucket.item]) (by omega), length_set, ?_,
      Nat.sub_le _ _⟩
    change d.nTombstones - 1 + d.tombstones = d.nTombstones +
      (d.put (d.probed hash key t) (.used key value) (d.size + 1) (d.nTombstones - 1)).tombstones
    omega
  | used key' old =>
    have hc := hcount d.size d.nTombstones
    rw [hb, show [Bucket.used key' old].count .tombstone = 0 from rfl] at hc
    obtain rfl : key' = key := by simpa [hb, Bucket.accepts] using hacc
    obtain ⟨rest, hold, hnew⟩ := items_put (.used key' value) d.size d.nTombstones hp
    rw [hb] at hold
    have hl : Lists ((key', old) :: rest) m := h.lists.perm hold
    refine ⟨_, by rw [hl.head]; rfl, h.put ht (.inr ⟨value, rfl⟩) hbefore
      (hl.replace.perm hnew.symm) ?_ (by omega), length_set, ?_, le_refl _⟩
    · rw [hnew.length_eq, h.size_eq, hold.length_eq]
      rfl
    · exact congrArg _ hc.symm

theorem entomb (h : Table hash d m) (hi : d.bucket i = .used key value) :
    Table hash (d.put i .tombstone (d.size - 1) (d.nTombstones + 1)) (m.erase key) ∧
    (d.put i .tombstone (d.size - 1) (d.nTombstones + 1)).tombstones = d.tombstones + 1 ∧
    0 < d.size := by
  have hlt : i < d.nBuckets := lt_of_bucket (by simp [hi])
  obtain ⟨t, ht, rfl, hbefore⟩ := h.reach i key value hi
  obtain ⟨rest, hold, hnew⟩ := items_put .tombstone (d.size - 1) (d.nTombstones + 1) hlt
  have hcount := tombstones_put .tombstone (d.size - 1) (d.nTombstones + 1) hlt
  have htombs := h.tombs
  rw [hi] at hold hcount
  simp only [count_singleton, beq_self_eq_true, if_true] at hcount
  have hl : Lists ((key, value) :: rest) m := h.lists.perm hold
  have hlen : d.size = rest.length + 1 := by
    rw [h.size_eq, hold.length_eq]
    rfl
  refine ⟨h.put ht (.inl rfl) hbefore (hl.tail.perm hnew.symm) ?_ (by omega), hcount, by omega⟩
  rw [hnew.length_eq, hlen]
  rfl

theorem not_masked (htombs : d.tombstones = 0) : ¬ d.Masked hash key := by
  rintro ⟨-, -, -, s, -, hs⟩
  have hlt : d.probed hash key s < d.nBuckets := lt_of_bucket (by simp [hs])
  have hmem : .tombstone ∈ d.buckets := by
    rw [← hs, bucket, getD_eq_getElem _ _ hlt]
    exact getElem_mem hlt
  exact count_eq_zero.1 htombs hmem

theorem fresh {n nTombstones : ℕ} (hpow : n ≠ 0 → ∃ a, n = 2 ^ a) :
    Table hash ⟨replicate n .unused, 0, nTombstones⟩ ∅ := by
  have hitems : (⟨replicate n .unused, 0, nTombstones⟩ : Data).items = [] := by
    simp [items, Bucket.item]
  refine ⟨?_, by rw [hitems]; exact .nil, by rw [hitems]; rfl, fun i key value hi => ?_, ?_⟩
  · simpa [nBuckets] using hpow
  · have hun : (⟨replicate n .unused, 0, nTombstones⟩ : Data).bucket i = .unused := by
      simp only [bucket, getD_eq_getElem?_getD, getElem?_replicate]
      split <;> rfl
    exact absurd (hun.symm.trans hi) nofun
  · simp [tombstones, count_replicate]

theorem reinsert (h : Table hash d m') (htombs : d.tombstones = 0)
    (hl : Lists (bs.filterMap Bucket.item ++ d.items) m)
    (hsize : oldSize = d.size + (bs.filterMap Bucket.item).length) (hroom : oldSize ≤ d.nBuckets) :
    ∃ d', Data.reinsert hash oldSize bs d.size d = some d' ∧ Table hash d' m ∧
      d'.nBuckets = d.nBuckets ∧ d'.tombstones = 0 ∧ d'.nTombstones = d.nTombstones := by
  induction bs generalizing d m' with
  | nil => exact ⟨d, rfl, hl.unique h.lists ▸ h, rfl, htombs, rfl⟩
  | cons b bs ih =>
    by_cases hdone : d.size < oldSize
    case neg =>
      have hnil : (b :: bs).filterMap Bucket.item = [] := by
        rw [← length_eq_zero_iff]
        omega
      rw [hnil] at hl
      refine ⟨d, ?_, hl.unique h.lists ▸ h, rfl, htombs, rfl⟩
      unfold Data.reinsert
      rw [if_neg hdone]
    case pos =>
      unfold Data.reinsert
      rw [if_pos hdone]
      cases b with
      | unused | tombstone => exact ih h htombs hl hsize hroom
      | used key value =>
        simp only [filterMap_cons, Bucket.item, length_cons] at hl hsize
        have hkey : m'.lookup key = none := by
          rw [Option.eq_none_iff_forall_ne_some]
          intro v hv
          have hmem : (key, v) ∈ d.items := (h.lists.mem_iff key v).2 hv
          exact (nodup_cons.1 hl.nodup).1
            (mem_map.2 ⟨(key, v), mem_append_right _ hmem, rfl⟩)
        have hlen := h.size_eq
        obtain ⟨d₁, hins, h₁, hn₁, hcount, hle⟩ := h.insertNoRehash key value (by omega)
          (not_masked htombs)
        have hperm : d₁.items.Perm ((key, value) :: d.items) := h₁.lists.perm_of (h.lists.cons hkey)
        have hsize₁ : d₁.size = d.size + 1 := by
          rw [h₁.size_eq, hperm.length_eq, length_cons, hlen]
        have hl₁ : Lists (bs.filterMap Bucket.item ++ d₁.items) m := by
          apply hl.perm
          exact perm_middle.symm.trans (hperm.symm.append_left _)
        obtain ⟨d', hre, h', hn', ht', hnt'⟩ := ih h₁ (by have := h₁.tombs; omega) hl₁ (by omega)
          (by omega)
        refine ⟨d', ?_, h', hn'.trans hn₁, ht', ?_⟩
        · simp [hins, ← hsize₁, hre]
        · omega

end Table

end ZephyrRtos.HashMap.OaLp
