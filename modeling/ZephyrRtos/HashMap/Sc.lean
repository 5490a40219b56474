import Mathlib.Data.List.GetD
import ZephyrRtos.HashMap.Config
import ZephyrRtos.Lib.Run

/-! The hash map with separate chaining (`lib/hash/hash_map_sc.c`). -/

namespace ZephyrRtos.HashMap.Sc

open Lib

abbrev Entry := UInt64 × UInt64

/-- `struct sys_hashmap_data`: each bucket is a list of entries. -/
structure Data where
  buckets : List (List Entry)
  size : ℕ
  deriving DecidableEq

namespace Data

def nBuckets (d : Data) : ℕ := d.buckets.length

def empty : Data := ⟨[], 0⟩

def bucketOf (hash : UInt64 → UInt32) (d : Data) (key : UInt64) : ℕ := (hash key).toNat % d.nBuckets

/-- `sys_hashmap_sc_insert_entry`; there is no result if it divides by zero. -/
def insertEntry (hash : UInt64 → UInt32) (d : Data) (entry : Entry) : Option Data :=
  if d.nBuckets = 0 then none
  else some ⟨d.buckets.modify (d.bucketOf hash entry.1) (· ++ [entry]), d.size + 1⟩

def insertAll (hash : UInt64 → UInt32) (d : Data) (list : List Entry) : Option Data :=
  list.foldlM (insertEntry hash) d

/-- `sys_hashmap_sc_to_list`: the list, and the buckets without their entries. -/
def toList (d : Data) : List Entry × Data :=
  (d.buckets.flatten, ⟨d.buckets.map fun _ => [], d.size⟩)

/-- `sys_hashmap_sc_rehash`; `alloc` says whether the reallocation succeeds. -/
def rehash (c : Config) (hash : UInt64 → UInt32) (alloc : Bool) (d : Data) (grow : Bool) :
    Option (Except Errno Unit × Data) :=
  let n := c.newNBuckets grow d.size d.nBuckets
  if !c.shouldRehash grow d.size d.nBuckets 0 then some (.ok (), d)
  else
    let (list, d) := d.toList
    if !alloc ∧ n ≠ 0 then do
      let d ← insertAll hash d list
      return (.error .enomem, d)
    else do
      let d ← insertAll hash ⟨List.replicate n [], 0⟩ list
      return (.ok (), d)

/-- `sys_hashmap_sc_find`; there is no result if its assertion fails. -/
def find (hash : UInt64 → UInt32) (asserts : Bool) (d : Data) (key : UInt64) :
    Option (Option Entry) :=
  if d.nBuckets = 0 then some none
  else if asserts ∧ d.size = 0 then none
  else some ((d.buckets.getD (d.bucketOf hash key) []).find? (·.1 == key))

def setValue (key value : UInt64) : List Entry → List Entry
  | [] => []
  | entry :: entries =>
    if entry.1 == key then (entry.1, value) :: entries else entry :: setValue key value entries

/-- `sys_hashmap_sc_insert`: 1 is returned with no old value, 0 with one. `alloc` is for the
buckets, `allocEntry` for the entry. -/
def insert (c : Config) (hash : UInt64 → UInt32) (asserts alloc allocEntry : Bool) (d : Data)
    (key value : UInt64) : Option (Except Errno (Option UInt64) × Data) := do
  match ← d.find hash asserts key with
  | some (_, old) =>
    return (.ok (some old), ⟨d.buckets.modify (d.bucketOf hash key) (setValue key value), d.size⟩)
  | none =>
    match ← d.rehash c hash alloc true with
    | (.error e, d) => return (.error e, d)
    | (.ok _, d) =>
      if !allocEntry then return (.error .enomem, d)
      let d ← d.insertEntry hash (key, value)
      return (.ok none, d)

/-- `sys_hashmap_sc_remove`; there is no result if the assertion that the reallocation has
succeeded fails. -/
def remove (c : Config) (hash : UInt64 → UInt32) (asserts alloc : Bool) (d : Data) (key : UInt64) :
    Option (Option UInt64 × Data) := do
  match ← d.find hash asserts key with
  | none => return (none, d)
  | some (_, value) =>
    let d : Data := ⟨d.buckets.modify (d.bucketOf hash key) (·.eraseP (·.1 == key)), d.size - 1⟩
    let (ret, d) ← d.rehash c hash alloc false
    if asserts ∧ ret.toOption.isNone then none
    else return (some value, d)

def get (hash : UInt64 → UInt32) (asserts : Bool) (d : Data) (key : UInt64) :
    Option (Option UInt64) := do
  let found ← d.find hash asserts key
  return found.map Prod.snd

/-- The inner loop of `sys_hashmap_sc_iter_next`: whether the previous key was found, and the entry
that comes after it. -/
def nextIn (key : UInt64) : List Entry → Bool → Bool × Option Entry
  | [], found => (found, none)
  | entry :: entries, false => nextIn key entries (entry.1 == key)
  | entry :: _, true => (true, some entry)

def nextFrom (key : UInt64) : List (List Entry) → ℕ → Bool → Option (ℕ × Entry)
  | [], _, _ => none
  | bucket :: buckets, i, found =>
    match nextIn key bucket found with
    | (_, some entry) => some (i, entry)
    | (found, none) => nextFrom key buckets (i + 1) found

end Data

/-- `struct sys_hashmap_iterator`; the state is the index of a bucket. -/
structure Iterator where
  state : ℕ
  key : UInt64
  value : UInt64
  size : ℕ
  pos : ℕ

namespace Data

def iter (d : Data) : Iterator := ⟨0, 0, 0, d.size, 0⟩

/-- `sys_hashmap_sc_iter_next`; there is no result if the assertion at its end fails. -/
def iterNext (d : Data) (it : Iterator) : Option Iterator := do
  let state := if it.pos = 0 then 0 else it.state
  let (state, key, value) ← nextFrom it.key (d.buckets.drop state) state (it.pos == 0)
  return { it with state, key, value, pos := it.pos + 1 }

/-- `sys_hashmap_foreach`, with `left` entries to go: what the callback is given. -/
def foreachLoop (d : Data) : ℕ → Iterator → Option (List Entry)
  | 0, _ => some []
  | left + 1, it => do
    let it ← d.iterNext it
    let entries ← foreachLoop d left it
    return (it.key, it.value) :: entries

def foreach (d : Data) : Option (List Entry) := d.foreachLoop (d.iter.size - d.iter.pos) d.iter

end Data

inductive Call
  | insert (key value : UInt64) (alloc allocEntry : Bool)
  | remove (key : UInt64) (alloc : Bool)
  | get (key : UInt64)
  | foreach
  | clear
  deriving DecidableEq

def Data.step (c : Config) (hash : UInt64 → UInt32) (asserts : Bool) (d : Data) :
    Call → Option (Data × List Event)
  | .insert key value alloc allocEntry => do
    match ← d.insert c hash asserts alloc allocEntry key value with
    | (.ok old, d) => return (d, [.did (.insert key value old)])
    | (.error e, d) => return (d, [.refused key e])
  | .remove key alloc => do
    let (old, d) ← d.remove c hash asserts alloc key
    return (d, [.did (.remove key old)])
  | .get key => do
    let found ← d.get hash asserts key
    return (d, [.did (.get key found)])
  | .foreach => do
    let entries ← d.foreach
    return (d, [.did (.visit entries)])
  | .clear =>
    -- `sys_hashmap_sc_clear` gives the callback what `sys_hashmap_sc_to_list` has returned
    some (.empty, [.did (.visit d.toList.1), .did .clear])

def sc (c : Config) (hash : UInt64 → UInt32) (asserts : Bool) : System Data Call Event :=
  ⟨.empty, Data.step c hash asserts⟩

/-! The chains of a map with separate chaining, what a search, an insertion, a removal and a rehash
do to them, and what an iteration visits. -/

open List
variable {hash : UInt64 → UInt32} {d d' : Data} {m : FiniteMap UInt64 UInt64}
  {key value old : UInt64} {asserts : Bool}

namespace Data

def items (d : Data) : List Entry := d.buckets.flatten

end Data

structure Chains (hash : UInt64 → UInt32) (d : Data) (m : FiniteMap UInt64 UInt64) : Prop where
  lists : Lists d.items m
  size_eq : d.size = d.items.length
  placed : ∀ i bucket, d.buckets[i]? = some bucket → ∀ entry ∈ bucket, d.bucketOf hash entry.1 = i

theorem exists_split (hash : UInt64 → UInt32) (key : UInt64) (hn : d.nBuckets ≠ 0) : ∃ l bucket r,
    d.buckets = l ++ bucket :: r ∧ d.buckets.getD (d.bucketOf hash key) [] = bucket ∧
    d.buckets[d.bucketOf hash key]? = some bucket ∧
    ∀ f : List Entry → List Entry, d.buckets.modify (d.bucketOf hash key) f = l ++ f bucket :: r := by
  have hlt : d.bucketOf hash key < d.buckets.length := Nat.mod_lt _ (Nat.pos_of_ne_zero hn)
  refine ⟨d.buckets.take (d.bucketOf hash key), d.buckets[d.bucketOf hash key],
    d.buckets.drop (d.bucketOf hash key + 1), ?_, ?_, ?_, fun f => ?_⟩
  · exact (take_append_drop _ _).symm.trans (congrArg _ (drop_eq_getElem_cons hlt))
  · exact getD_eq_getElem _ _ hlt
  · exact getElem?_eq_getElem hlt
  · exact modify_eq_take_cons_drop hlt

theorem exists_entry (h : bucket.find? (·.1 == key) = some (key, old)) :
    ∃ l r, bucket = l ++ (key, old) :: r ∧ key ∉ l.map Prod.fst := by
  obtain ⟨-, l, r, rfl, hl⟩ := find?_eq_some_iff_append.1 h
  refine ⟨l, r, rfl, fun hmem => ?_⟩
  obtain ⟨entry, hentry, rfl⟩ := mem_map.1 hmem
  simpa using hl entry hentry

theorem setValue_append (h : key ∉ l.map Prod.fst) :
    Data.setValue key value (l ++ (key, old) :: r) = l ++ (key, value) :: r := by
  induction l with
  | nil => simp [Data.setValue]
  | cons entry l ih =>
    rw [map_cons, mem_cons, not_or] at h
    have hne : ¬ entry.1 = key := fun he => h.1 he.symm
    simp [Data.setValue, hne, ih h.2]

theorem eraseP_append (h : key ∉ l.map Prod.fst) :
    (l ++ (key, old) :: r).eraseP (·.1 == key) = l ++ r := by
  rw [eraseP_append_right]
  · simp
  · intro entry hentry
    rw [beq_iff_eq]
    rintro rfl
    exact h (mem_map_of_mem hentry)

namespace Chains

section

variable (h : Chains hash d m)
include h

theorem size_eq_card : d.size = m.keys.card := by
  rw [h.size_eq, h.lists.card_keys]

theorem find?_eq (key : UInt64) (hn : d.nBuckets ≠ 0) :
    (d.buckets.getD (d.bucketOf hash key) []).find? (·.1 == key) =
      (m.lookup key).map fun value => (key, value) := by
  obtain ⟨-, bucket, -, -, hget, hsome, -⟩ := exists_split hash key hn
  rw [hget]
  have hin : ∀ v, (key, v) ∈ bucket ↔ m.lookup key = some v := by
    intro v
    rw [← h.lists.mem_iff, Data.items, mem_flatten]
    constructor
    · intro hv
      exact ⟨bucket, mem_of_getElem? hsome, hv⟩
    · rintro ⟨b, hb, hv⟩
      obtain ⟨i, hi⟩ := mem_iff_getElem?.1 hb
      rw [← h.placed i b hi _ hv, hsome] at hi
      exact Option.some.inj hi ▸ hv
  cases hv : m.lookup key with
  | none =>
    rw [Option.map_none, find?_eq_none]
    rintro ⟨k, v⟩ hmem hk
    obtain rfl : k = key := beq_iff_eq.1 hk
    rw [(hin v).1 hmem] at hv
    simp at hv
  | some v =>
    have hfound : (bucket.find? (·.1 == key)).isSome :=
      find?_isSome.2 ⟨(key, v), (hin v).2 hv, beq_self_eq_true key⟩
    obtain ⟨⟨k, w⟩, hw⟩ := Option.isSome_iff_exists.1 hfound
    have hk := find?_some hw
    obtain rfl : k = key := beq_iff_eq.1 hk
    obtain rfl : w = v := by
      have := (hin w).1 (mem_of_find?_eq_some hw)
      exact Option.some.inj (this.symm.trans hv)
    rw [hw]
    rfl

theorem find_eq (key : UInt64) (hassert : asserts = true → d.nBuckets ≠ 0 → d.size ≠ 0) :
    d.find hash asserts key = some ((m.lookup key).map fun value => (key, value)) := by
  unfold Data.find
  split
  · next hn =>
    have hnil : d.items = [] := by
      rw [Data.items, length_eq_zero_iff.1 hn]
      rfl
    have hl := h.lists
    rw [hnil] at hl
    rw [hl.eq_empty]
    rfl
  next hn =>
  rw [if_neg fun ha => hassert ha.1 hn ha.2, h.find?_eq key hn]

theorem modify (hn : d.nBuckets ≠ 0)
    (hkeys : ∀ bucket, ∀ entry ∈ f bucket, entry ∈ bucket ∨ entry.1 = key)
    (hlists : ∀ l bucket r, d.buckets = l ++ bucket :: r → d.buckets.getD (d.bucketOf hash key) [] = bucket → Lists (l ++ f bucket :: r).flatten m' ∧ size = (l ++ f bucket :: r).flatten.length) :
    Chains hash ⟨d.buckets.modify (d.bucketOf hash key) f, size⟩ m' := by
  obtain ⟨l, bucket, r, heq, hget, -, hmod⟩ := exists_split hash key hn
  obtain ⟨hl, hs⟩ := hlists l bucket r heq hget
  refine ⟨by rw [hmod]; exact hl, by rw [hmod]; exact hs, ?_⟩
  intro i b hi entry hentry
  have hof : Data.bucketOf hash ⟨d.buckets.modify (d.bucketOf hash key) f, size⟩ entry.1 =
      d.bucketOf hash entry.1 := by
    unfold Data.bucketOf Data.nBuckets
    rw [length_modify]
  rw [hof]
  rw [getElem?_modify] at hi
  split at hi
  · next hbucket =>
    obtain ⟨b', hb', rfl⟩ := Option.map_eq_some_iff.1 hi
    obtain hold | hkey := hkeys b' entry hentry
    · exact h.placed i b' hb' entry hold
    · rw [hkey, hbucket]
  · obtain ⟨b', hb', rfl⟩ := Option.map_eq_some_iff.1 hi
    exact h.placed i b' hb' entry hentry

theorem insertEntry (value : UInt64) (hn : d.nBuckets ≠ 0) (hkey : m.lookup key = none) :
    ∃ d', d.insertEntry hash (key, value) = some d' ∧ Chains hash d' (m.insert key value) ∧
      d'.nBuckets = d.nBuckets ∧ d'.size = d.size + 1 := by
  refine ⟨_, if_neg hn, h.modify hn ?_ ?_, length_modify .., rfl⟩
  · intro bucket entry hentry
    rw [mem_append, mem_singleton] at hentry
    exact hentry.imp id fun he => by rw [he]
  intro l bucket r heq _
  have hperm : ((key, value) :: d.items).Perm
      (l ++ (bucket ++ [(key, value)]) :: r).flatten := by
    rw [Data.items, heq]
    simp only [flatten_append, flatten_cons, append_assoc]
    rw [← append_assoc, ← append_assoc l.flatten bucket]
    exact perm_middle.symm
  exact ⟨(h.lists.cons hkey).perm hperm, by rw [← hperm.length_eq, h.size_eq]; rfl⟩

end

theorem insertAll (h : Chains hash d m') (hn : list ≠ [] → d.nBuckets ≠ 0)
    (hl : Lists (list ++ d.items) m) :
    ∃ d', d.insertAll hash list = some d' ∧ Chains hash d' m ∧ d'.nBuckets = d.nBuckets := by
  induction list generalizing d m' with
  | nil => exact ⟨d, rfl, hl.unique h.lists ▸ h, rfl⟩
  | cons entry list ih =>
    obtain ⟨key, value⟩ := entry
    have hkey : m'.lookup key = none := by
      rw [Option.eq_none_iff_forall_ne_some]
      intro v hv
      exact (nodup_cons.1 hl.nodup).1 (mem_map.2
        ⟨(key, v), mem_append_right _ ((h.lists.mem_iff key v).2 hv), rfl⟩)
    have hne := hn (by simp)
    obtain ⟨d₁, hins, h₁, hn₁, -⟩ := h.insertEntry value hne hkey
    have hperm : d₁.items.Perm ((key, value) :: d.items) := h₁.lists.perm_of (h.lists.cons hkey)
    have hl₁ : Lists (list ++ d₁.items) m :=
      hl.perm (perm_middle.symm.trans (hperm.symm.append_left _))
    obtain ⟨d', hall, h', hn'⟩ := ih h₁ (fun _ => hn₁ ▸ hne) hl₁
    refine ⟨d', ?_, h', hn'.trans hn₁⟩
    rwa [Data.insertAll, foldlM_cons, hins]

theorem fresh (hash : UInt64 → UInt32) (n : ℕ) : Chains hash ⟨replicate n [], 0⟩ ∅ where
  lists := by
    rw [Data.items, flatten_replicate_nil]
    exact .nil
  size_eq := by
    rw [Data.items, flatten_replicate_nil]
    rfl
  placed i bucket hi entry hentry := by
    rw [getElem?_replicate] at hi
    split at hi
    · rw [← Option.some.inj hi] at hentry
      cases hentry
    · simp at hi

theorem moved (h : Chains hash d m) (hn : d.size ≠ 0 → n ≠ 0) : ∃ d',
    Data.insertAll hash ⟨replicate n [], 0⟩ d.buckets.flatten = some d' ∧ Chains hash d' m ∧
      d'.nBuckets = n := by
  have hitems : (⟨replicate n [], 0⟩ : Data).items = [] := flatten_replicate_nil
  have hroom : d.buckets.flatten ≠ [] → (⟨replicate n [], 0⟩ : Data).nBuckets ≠ 0 := by
    intro hne
    rw [Data.nBuckets, length_replicate]
    apply hn
    rw [h.size_eq]
    exact fun h0 => hne (length_eq_zero_iff.1 h0)
  obtain ⟨d', hall, h', hn'⟩ := (fresh hash n).insertAll hroom
    (by rw [hitems, append_nil]; exact h.lists)
  exact ⟨d', hall, h', hn'.trans length_replicate⟩

section

variable (h : Chains hash d m) (hn : d.nBuckets ≠ 0) (hkey : m.lookup key = some old)
include h hn hkey

theorem setValue :
    Chains hash ⟨d.buckets.modify (d.bucketOf hash key) (Data.setValue key value), d.size⟩
      (m.insert key value) := by
  have hfind := h.find?_eq key hn
  rw [hkey] at hfind
  apply h.modify hn
  · intro bucket entry hentry
    induction bucket with
    | nil => exact absurd hentry not_mem_nil
    | cons e bucket ih =>
      unfold Data.setValue at hentry
      split at hentry
      · next he =>
        obtain rfl | hentry := mem_cons.1 hentry
        · exact .inr (by simpa using he)
        · exact .inl (mem_cons_of_mem _ hentry)
      · obtain rfl | hentry := mem_cons.1 hentry
        · exact .inl mem_cons_self
        · exact (ih hentry).imp (mem_cons_of_mem _) id
  · intro l bucket r heq hget
    rw [hget] at hfind
    obtain ⟨l', r', rfl, hnot⟩ := exists_entry hfind
    rw [setValue_append hnot]
    have hperm : ∀ v, (l ++ (l' ++ (key, v) :: r') :: r).flatten.Perm
        ((key, v) :: (l ++ (l' ++ r') :: r).flatten) := by
      intro v
      simp only [flatten_append, flatten_cons, append_assoc]
      rw [← append_assoc, ← append_assoc l.flatten l']
      exact perm_middle
    have hl : Lists ((key, old) :: (l ++ (l' ++ r') :: r).flatten) m := by
      have := h.lists
      rw [Data.items, heq] at this
      exact this.perm (hperm old)
    refine ⟨hl.replace.perm (hperm value).symm, ?_⟩
    rw [h.size_eq, Data.items, heq, (hperm old).length_eq, (hperm value).length_eq]
    rfl

theorem eraseEntry :
    Chains hash ⟨d.buckets.modify (d.bucketOf hash key) (·.eraseP (·.1 == key)), d.size - 1⟩
      (m.erase key) := by
  have hfind := h.find?_eq key hn
  rw [hkey] at hfind
  apply h.modify hn
  · intro bucket entry hentry
    exact .inl (mem_of_mem_eraseP hentry)
  intro l bucket r heq hget
  rw [hget] at hfind
  obtain ⟨l', r', rfl, hnot⟩ := exists_entry hfind
  rw [eraseP_append hnot]
  have hperm : d.items.Perm ((key, old) :: (l ++ (l' ++ r') :: r).flatten) := by
    rw [Data.items, heq]
    simp only [flatten_append, flatten_cons, append_assoc]
    rw [← append_assoc, ← append_assoc l.flatten l']
    exact perm_middle
  refine ⟨(h.lists.perm hperm).tail, ?_⟩
  rw [h.size_eq, hperm.length_eq]
  rfl

end

end Chains

section Iteration

variable {l r rest : List Entry} {entry : Entry} {buckets : List (List Entry)} {it : Iterator}

theorem nextIn_append (h : key ∉ l.map Prod.fst) :
    Data.nextIn key (l ++ (key, value) :: r) false = Data.nextIn key r true := by
  induction l with
  | nil => simp [Data.nextIn]
  | cons e l ih =>
    rw [map_cons, mem_cons, not_or] at h
    have hne : (e.1 == key) = false := beq_eq_false_iff_ne.2 fun he => h.1 he.symm
    rw [cons_append, Data.nextIn, hne, ih h.2]

theorem nextFrom_true (key : UInt64) (i : ℕ) (h : buckets.flatten = entry :: rest) : ∃ k l,
    Data.nextFrom key buckets i true = some (i + k, entry) ∧ buckets[k]? = some (entry :: l) ∧
      rest = l ++ (buckets.drop (k + 1)).flatten := by
  induction buckets generalizing i with
  | nil => simp at h
  | cons bucket buckets ih =>
    cases bucket with
    | nil =>
      obtain ⟨k, l, hnext, hget, hrest⟩ := ih (i + 1) h
      refine ⟨k + 1, l, ?_, hget, hrest⟩
      change Data.nextFrom key buckets (i + 1) true = _
      rw [hnext, add_assoc, Nat.add_comm 1]
    | cons e l =>
      obtain ⟨rfl, rfl⟩ := cons.inj h
      exact ⟨0, l, by rw [Data.nextFrom]; rfl, rfl, rfl⟩

/-- The iterator has `rest` to visit: it has not begun, or is at an entry of its bucket. -/
def At (d : Data) (it : Iterator) (rest : List Entry) : Prop :=
  it.pos = 0 ∧ rest = d.items ∨
  it.pos ≠ 0 ∧ ∃ l value r, d.buckets[it.state]? = some (l ++ (it.key, value) :: r) ∧
    it.key ∉ l.map Prod.fst ∧ rest = r ++ (d.buckets.drop (it.state + 1)).flatten

theorem At.next (hnd : (d.items.map Prod.fst).Nodup) (h : At d it (entry :: rest)) :
    ∃ it', d.iterNext it = some it' ∧ (it'.key, it'.value) = entry ∧ At d it' rest := by
  -- where the search of a bucket goes on to the next ones
  have hgo : ∀ i, (d.buckets.drop i).flatten = entry :: rest → ∃ it',
      (Data.nextFrom it.key (d.buckets.drop i) i true >>= fun p =>
        some { it with state := p.1, key := p.2.1, value := p.2.2, pos := it.pos + 1 }) = some it' ∧
      (it'.key, it'.value) = entry ∧ At d it' rest := by
    intro i hi
    obtain ⟨k, l, hnext, hget, hrest⟩ := nextFrom_true it.key i hi
    rw [getElem?_drop] at hget
    rw [drop_drop] at hrest
    exact ⟨_, by rw [hnext]; rfl, rfl, .inr ⟨Nat.succ_ne_zero _, [], entry.2, l, hget, by simp,
      by rw [hrest, add_assoc]⟩⟩
  obtain ⟨hpos, hrest⟩ | ⟨hpos, l, value, r, hget, hnot, hrest⟩ := h
  · obtain ⟨it', hnext, hkey, hat⟩ := hgo 0 hrest.symm
    refine ⟨it', ?_, hkey, hat⟩
    unfold Data.iterNext
    simp only [hpos]
    rwa [hpos] at hnext
  have hlt := (List.getElem?_eq_some_iff.1 hget).1
  have hdrop : d.buckets.drop it.state =
      (l ++ (it.key, value) :: r) :: d.buckets.drop (it.state + 1) := by
    rw [drop_eq_getElem_cons hlt, (List.getElem?_eq_some_iff.1 hget).2]
  have hpos' : (it.pos == 0) = false := beq_eq_false_iff_ne.2 hpos
  unfold Data.iterNext
  simp only [hpos, if_false, hpos', hdrop]
  rw [Data.nextFrom, nextIn_append hnot]
  cases r with
  | nil => exact hgo (it.state + 1) hrest.symm
  | cons e r =>
    obtain ⟨rfl, rfl⟩ := cons.inj hrest
    refine ⟨_, rfl, rfl, .inr ⟨Nat.succ_ne_zero _, l ++ [(it.key, value)], entry.2, r, ?_, ?_, rfl⟩⟩
    · simpa using hget
    · -- the keys before this one are other keys
      have hsub : ((l ++ [(it.key, value)]) ++ entry :: r).Sublist d.items := by
        have hmem := mem_of_getElem? hget
        simpa [Data.items] using sublist_flatten_of_mem hmem
      have hnd' := (hsub.map Prod.fst).nodup hnd
      rw [map_append] at hnd'
      exact fun hmem => disjoint_of_nodup_append hnd' hmem mem_cons_self

theorem At.foreachLoop (hnd : (d.items.map Prod.fst).Nodup) (h : At d it rest) :
    d.foreachLoop rest.length it = some rest := by
  induction rest generalizing it with
  | nil => rfl
  | cons entry rest ih =>
    obtain ⟨it', hnext, hkey, hat⟩ := h.next hnd
    rw [length_cons, Data.foreachLoop]
    simp only [hnext, Option.bind_eq_bind, Option.bind_some, ih hat, hkey]
    rfl

theorem Chains.foreach (h : Chains hash d m) : d.foreach = some d.items := by
  have hat : At d d.iter d.items := .inl ⟨rfl, rfl⟩
  have hloop := hat.foreachLoop h.lists.nodup
  rwa [← h.size_eq] at hloop

end Iteration

end ZephyrRtos.HashMap.Sc
