import ZephyrRtos.HashMap.OaLp

/-! Runs of a map with open addressing: it is a finite map as long as no insertion meets a
tombstone before a key that the map has. -/

namespace ZephyrRtos.HashMap

open List Lib

variable {c : Config} {sizeBits maxSize loadFactor : ℕ}

/-- What `SYS_HASHMAP_CONFIG` gives for a load factor below 100. -/
structure Config.Valid (c : Config) : Prop where
  bits : 16 ≤ c.sizeBits
  pos : 1 ≤ c.loadFactor
  lt : c.loadFactor < 100
  initial : ∃ a, c.initialNBuckets = 2 ^ (a + 1)
  initial_lt : c.initialNBuckets < 2 ^ 8

theorem config_valid (hbits : 16 ≤ sizeBits) (h1 : 1 ≤ loadFactor)
    (h100 : loadFactor < 100) : (sysHashmapConfig sizeBits maxSize loadFactor).Valid := by
  have hlf : (sysHashmapConfig sizeBits maxSize loadFactor).loadFactor = loadFactor :=
    Nat.mod_eq_of_lt (by omega)
  obtain ⟨a, ha, -⟩ := config_initial sizeBits maxSize h1 h100
  exact ⟨hbits, by omega, by omega, ⟨a, ha⟩, Nat.mod_lt _ (by decide)⟩

namespace OaLp

variable {hash : UInt64 → UInt32} {d d' : Data} {m : FiniteMap UInt64 UInt64} {alloc : Bool}
  {key value : UInt64} {es es' : List Event} {a : Call}

/-- `sys_hashmap_oa_lp_rehash` gets to where it moves the entries to new buckets. -/
def Rehashes (c : Config) (alloc : Bool) (grow : Bool) (d : Data) : Prop :=
  c.shouldRehash grow d.size d.nBuckets d.nTombstones = true ∧
    (d.size = c.sizeMax ∨ d.size ≠ c.maxSize) ∧
    (alloc = true ∨ c.newNBuckets grow d.size d.nBuckets = 0)

instance {grow : Bool} : Decidable (Rehashes c alloc grow d) := inferInstanceAs (Decidable (_ ∧ _))

/-- An insertion has no overflow in its sizes, and does not miss its key for a tombstone. -/
def Unmasked (c : Config) (hash : UInt64 → UInt32) (d : Data) : Call → Prop
  | .insert key _ _ => c.Fits (d.size + 1 + d.nTombstones) ∧
      (c.shouldRehash true d.size d.nBuckets d.nTombstones = false → ¬ d.Masked hash key)
  | _ => True

instance : (a : Call) → Decidable (Unmasked c hash d a)
  | .insert .. => inferInstanceAs (Decidable (_ ∧ (_ → _)))
  | .remove .. | .get _ | .clear => inferInstanceAs (Decidable True)

/-- The entries move to new buckets only if no tombstones are counted. -/
def Unburied (c : Config) (hash : UInt64 → UInt32) (d : Data) : Call → Prop
  | .insert _ _ alloc => Rehashes c alloc true d → d.nTombstones = 0
  | .remove key alloc => (d.get hash key).isSome →
      ¬ Rehashes c alloc false ⟨d.buckets, d.size - 1, d.nTombstones + 1⟩
  | _ => True

instance : (a : Call) → Decidable (Unburied c hash d a)
  | .insert .. => inferInstanceAs (Decidable (_ → _))
  | .remove .. => inferInstanceAs (Decidable (_ → ¬ _))
  | .get _ | .clear => inferInstanceAs (Decidable True)

theorem Table.size_eq_card (h : Table hash d m) : d.size = m.keys.card := by
  rw [h.size_eq, h.lists.card_keys]

theorem Table.moved (h : Table hash d m) (hpow : n ≠ 0 → ∃ a, n = 2 ^ a) (hroom : d.size ≤ n) :
    ∃ d',
      Data.reinsert hash d.size d.buckets 0 ⟨replicate n .unused, 0, d.nTombstones⟩ = some d' ∧
      Table hash d' m ∧ d'.nBuckets = n ∧ d'.tombstones = 0 ∧ d'.nTombstones = d.nTombstones := by
  have hfresh : Table hash ⟨replicate n .unused, 0, d.nTombstones⟩ ∅ := .fresh hpow
  have hitems : (⟨replicate n .unused, 0, d.nTombstones⟩ : Data).items = [] := by
    simp [Data.items, filterMap_replicate, Bucket.item]
  have hn : (⟨replicate n .unused, 0, d.nTombstones⟩ : Data).nBuckets = n := length_replicate
  have htombs : (⟨replicate n .unused, 0, d.nTombstones⟩ : Data).tombstones = 0 := by
    simp [Data.tombstones, count_replicate]
  have hlists : Lists (d.buckets.filterMap Bucket.item ++
      (⟨replicate n .unused, 0, d.nTombstones⟩ : Data).items) m := by
    rw [hitems, append_nil]
    exact h.lists
  obtain ⟨d', hre, h', hn', ht', hnt'⟩ := hfresh.reinsert htombs hlists
    (show d.size = 0 + _ by rw [h.size_eq, Data.items, zero_add]) (by rw [hn]; exact hroom)
  exact ⟨d', hre, h', hn'.trans hn, ht', hnt'⟩

/-- The invariant of a map between two calls: there are buckets if and only if there are entries. -/
structure Inv (c : Config) (hash : UInt64 → UInt32) (d : Data) (m : FiniteMap UInt64 UInt64) :
    Prop where
  table : Table hash d m
  shape : d.nBuckets = 0 ∧ d.size = 0 ∨ (∃ a, d.nBuckets = 2 ^ (a + 1)) ∧ d.size ≠ 0
  fits : c.Fits d.size
  lt : d.nBuckets < 2 ^ c.sizeBits
  max : d.nBuckets ≠ 0 → c.maxSize ≠ 0

theorem Inv.empty : Inv c hash .empty ∅ where
  table := .fresh (n := 0) (absurd rfl)
  shape := .inl ⟨rfl, rfl⟩
  fits := by simp [Config.Fits, Data.empty]
  lt := by simp [Data.nBuckets, Data.empty]
  max h := absurd rfl h

theorem rehash_of_rehashes (hash : UInt64 → UInt32) (h : Rehashes c alloc grow d) :
    d.rehash c hash alloc grow = (Data.reinsert hash d.size d.buckets 0
      ⟨replicate (c.newNBuckets grow d.size d.nBuckets) .unused, 0, d.nTombstones⟩).map .ok := by
  obtain ⟨hs, hmax, halloc⟩ := h
  unfold Data.rehash
  rw [hs]
  simp only [Bool.not_true, Bool.false_eq_true, if_false]
  rw [if_neg, if_neg, Option.map_eq_bind]
  · rfl
  · rintro ⟨hal, hn⟩
    obtain hal' | hn' := halloc
    · simp [hal'] at hal
    · exact hn hn'
  · rintro ⟨hsm, hm⟩
    exact hmax.elim hsm fun hm' => hm' hm

theorem rehash_of_not (hash : UInt64 → UInt32) (h : ¬ Rehashes c alloc grow d) :
    d.rehash c hash alloc grow = some (.ok d) ∧
      c.shouldRehash grow d.size d.nBuckets d.nTombstones = false ∨
    ∃ e, d.rehash c hash alloc grow = some (.error e) ∧
      (e = .enospc ∧ d.size ≠ c.sizeMax ∧ d.size = c.maxSize ∨
        e = .enomem ∧ alloc = false ∧ c.newNBuckets grow d.size d.nBuckets ≠ 0) := by
  unfold Data.rehash
  cases hs : c.shouldRehash grow d.size d.nBuckets d.nTombstones with
  | false => exact .inl ⟨rfl, rfl⟩
  | true =>
    right
    simp only [Bool.not_true, Bool.false_eq_true, if_false]
    split
    · next hmax => exact ⟨_, rfl, .inl ⟨rfl, hmax⟩⟩
    next hmax =>
    split
    · next halloc => exact ⟨_, rfl, .inr ⟨rfl, by simpa using halloc⟩⟩
    next halloc =>
    exfalso
    apply h
    refine ⟨hs, ?_, ?_⟩
    · by_cases hsm : d.size = c.sizeMax
      · exact .inl hsm
      · exact .inr fun he => hmax ⟨hsm, he⟩
    · by_cases hal : alloc = true
      · exact .inl hal
      · exact .inr (Classical.byContradiction fun hne => halloc ⟨by simpa using hal, hne⟩)

theorem Table.size_le (h : Table hash d m) : d.size ≤ d.nBuckets := by
  rw [h.size_eq]
  exact length_filterMap_le ..

theorem Inv.newNBuckets_grow (hc : c.Valid) (h : Inv c hash d m)
    (hfits : c.Fits (d.size + 1 + d.nTombstones)) (hr : Rehashes c alloc true d) :
    (∃ a, c.newNBuckets true d.size d.nBuckets = 2 ^ (a + 1)) ∧
    c.newNBuckets true d.size d.nBuckets < 2 ^ c.sizeBits ∧
    d.size < c.newNBuckets true d.size d.nBuckets ∧ c.maxSize ≠ 0 := by
  obtain ⟨hs, hmax, -⟩ := hr
  obtain ⟨h0, hs0⟩ | ⟨⟨a, ha⟩, hs0⟩ := h.shape
  · have hpow : 2 ^ 16 ≤ 2 ^ c.sizeBits := Nat.pow_le_pow_right (by decide) hc.bits
    have hi := hc.initial_lt
    obtain ⟨a, ha⟩ := hc.initial
    rw [hs0] at hmax ⊢
    rw [h0, Config.newNBuckets_first hc.bits hi]
    refine ⟨⟨a, ha⟩, by omega, by rw [ha]; exact Nat.two_pow_pos _, fun hm => ?_⟩
    unfold Config.sizeMax at hmax
    omega
  · have hle := h.table.size_le
    have hn0 : d.nBuckets ≠ 0 := by
      rw [ha]
      exact ne_of_gt (Nat.two_pow_pos _)
    obtain ⟨hgrow, hlt⟩ := Config.newNBuckets_grow hc.pos hs0 hfits hs hn0
    rw [hgrow]
    exact ⟨⟨a + 1, by rw [ha]; exact Nat.pow_succ'.symm⟩, hlt, by omega, h.max hn0⟩

theorem Inv.rehash_grow (alloc : Bool) (hc : c.Valid) (h : Inv c hash d m)
    (hfits : c.Fits (d.size + 1 + d.nTombstones)) :
    (∃ e, d.rehash c hash alloc true = some (.error e) ∧
      (e = .enospc ∧ d.size = c.maxSize ∨ e = .enomem ∧ alloc = false)) ∨
    ∃ d₁, d.rehash c hash alloc true = some (.ok d₁) ∧ Table hash d₁ m ∧
      (∃ a, d₁.nBuckets = 2 ^ (a + 1)) ∧ d₁.nBuckets < 2 ^ c.sizeBits ∧ c.maxSize ≠ 0 ∧
      d₁.size < d₁.nBuckets ∧ d₁.nTombstones = d.nTombstones ∧
      (c.shouldRehash true d.size d.nBuckets d.nTombstones = false ∧ d₁ = d ∨
        Rehashes c alloc true d ∧ d₁.tombstones = 0) := by
  by_cases hr : Rehashes c alloc true d
  · obtain ⟨⟨a, ha⟩, hlt, hroom, hm⟩ := h.newNBuckets_grow hc hfits hr
    obtain ⟨d', hre, h', hn', ht', hnt'⟩ := h.table.moved (fun _ => ⟨a + 1, ha⟩) hroom.le
    refine .inr ⟨d', by rw [rehash_of_rehashes hash hr, hre]; rfl, h', ⟨a, hn'.trans ha⟩, by omega, hm,
      ?_, hnt', .inr ⟨hr, ht'⟩⟩
    rwa [h'.size_eq_card, ← h.table.size_eq_card, hn']
  obtain ⟨heq, hs⟩ | ⟨e, heq, hwhy⟩ := rehash_of_not hash hr
  · have hlt := Config.lt_of_not_rehash hc.lt hfits hs
    obtain ⟨h0, -⟩ | ⟨hpow, -⟩ := h.shape
    · omega
    · exact .inr ⟨d, heq, h.table, hpow, h.lt, h.max (by omega), by omega, rfl, .inl ⟨hs, rfl⟩⟩
  · exact .inl ⟨e, heq, hwhy.imp (fun hw => ⟨hw.1, hw.2.2⟩) (fun hw => ⟨hw.1, hw.2.1⟩)⟩

theorem Inv.insert (hc : c.Valid) (h : Inv c hash d m)
    (hok : Unmasked c hash d (.insert key value alloc)) :
    (∃ e, d.insert c hash alloc key value = some (.error e, d) ∧
      (e = .enospc ∧ d.size = c.maxSize ∨ e = .enomem ∧ alloc = false)) ∨
    ∃ d', d.insert c hash alloc key value = some (.ok (m.lookup key), d') ∧
      Inv c hash d' (m.insert key value) ∧
      (d.nTombstones = d.tombstones → (Rehashes c alloc true d → d.nTombstones = 0) →
        d'.nTombstones = d'.tombstones) := by
  obtain ⟨hfits, hmask⟩ := hok
  unfold Data.insert
  obtain ⟨e, heq, hwhy⟩ | ⟨d₁, heq, h₁, ⟨a, ha⟩, hlt, hm, hroom, hnt, hwhich⟩ :=
    h.rehash_grow alloc hc hfits
  · exact .inl ⟨e, by rw [heq]; rfl, hwhy⟩
  right
  have hmask₁ : ¬ d₁.Masked hash key := by
    obtain ⟨hs, rfl⟩ | ⟨-, ht⟩ := hwhich
    · exact hmask hs
    · exact Table.not_masked ht
  obtain ⟨d', hins, h', hn', hcount, -⟩ := h₁.insertNoRehash key value (h₁.size_eq ▸ hroom) hmask₁
  have hcard : d'.size = (m.insert key value).keys.card := h'.size_eq_card
  have hcard_le : (m.insert key value).keys.card ≤ d.size + 1 := by
    rw [h.table.size_eq_card, keys_insert]
    exact Finset.card_insert_le ..
  refine ⟨d', ?_, ⟨h', .inr ⟨⟨a, hn'.trans ha⟩, ?_⟩, hfits.mono ?_, by omega, fun _ => hm⟩, ?_⟩
  · rw [heq]
    simp only [Option.bind_eq_bind, Option.bind_some, hins]
    rfl
  · rw [hcard, keys_insert]
    exact Finset.card_ne_zero_of_mem (Finset.mem_insert_self ..)
  · omega
  · intro hd hstale
    obtain ⟨-, rfl⟩ | ⟨hr, ht⟩ := hwhich
    · omega
    · have h0 := hstale hr
      omega

theorem Table.rehash_shrink (alloc : Bool) (hc : c.Valid) (h : Table hash d m)
    (hpow : ∃ a, d.nBuckets = 2 ^ (a + 1))
    (hfits : c.Fits d.size) (hlt : d.nBuckets < 2 ^ c.sizeBits) (hmax : c.maxSize ≠ 0) :
    ∃ d', (d.rehash c hash alloc false = some (.ok d') ∨
        (∃ e, d.rehash c hash alloc false = some (.error e)) ∧ d' = d) ∧ Inv c hash d' m ∧
      (d.nTombstones = d.tombstones → ¬ Rehashes c alloc false d →
        d'.nTombstones = d'.tombstones) := by
  have hsize : d.size < 2 ^ c.sizeBits := lt_of_le_of_lt h.size_le hlt
  have hnew := Config.newNBuckets_shrink hsize hlt
  obtain ⟨a, ha⟩ := hpow
  by_cases hr : Rehashes c alloc false d
  · have hrehash := rehash_of_rehashes hash hr
    by_cases h0 : d.size = 0
    · rw [if_pos h0] at hnew
      obtain ⟨d', hre, h', hn', -⟩ := h.moved (absurd rfl) h0.le
      rw [hnew, hre] at hrehash
      have hs' : d'.size = 0 := by rw [h'.size_eq_card, ← h.size_eq_card, h0]
      exact ⟨d', .inl hrehash, ⟨h', .inl ⟨hn', hs'⟩, by rw [hs', ← h0]; exact hfits, by omega,
        fun _ => hmax⟩, fun _ hnot => absurd hr hnot⟩
    have hhalf : d.nBuckets / 2 = 2 ^ a := by
      rw [ha, Nat.pow_succ, Nat.mul_div_cancel _ (by decide)]
    rw [if_neg h0, hhalf] at hnew
    have htwo : 2 ≤ d.nBuckets := by
      have := Nat.two_pow_pos a
      omega
    have hroom := Config.lt_of_rehash hc.lt hfits h0 hlt htwo hr.1
    rw [hhalf] at hroom
    obtain ⟨d', hre, h', hn', -⟩ := h.moved (fun _ => ⟨a, rfl⟩) hroom.le
    rw [hnew, hre] at hrehash
    have hs' : d'.size = d.size := by rw [h'.size_eq_card, ← h.size_eq_card]
    -- one bucket has no room for an entry and a free bucket
    obtain ⟨b, rfl⟩ : ∃ b, a = b + 1 := by
      cases a with
      | zero => exact absurd hroom (by simp; omega)
      | succ b => exact ⟨b, rfl⟩
    exact ⟨d', .inl hrehash, ⟨h', .inr ⟨⟨b, hn'⟩, by omega⟩, hs' ▸ hfits,
      by rw [pow_succ] at ha; omega, fun _ => hmax⟩, fun _ hnot => absurd hr hnot⟩
  · have hkeep : d.size ≠ 0 → Inv c hash d m := fun h0 =>
      ⟨h, .inr ⟨⟨a, ha⟩, h0⟩, hfits, hlt, fun _ => hmax⟩
    obtain ⟨heq, hs⟩ | ⟨e, heq, hwhy⟩ := rehash_of_not hash hr
    · refine ⟨d, .inl heq, hkeep fun h0 => ?_, fun hd _ => hd⟩
      rw [h0, Config.shouldRehash_empty hlt] at hs
      simp at hs
    · refine ⟨d, .inr ⟨⟨e, heq⟩, rfl⟩, hkeep fun h0 => ?_, fun hd _ => hd⟩
      obtain ⟨-, -, hm⟩ | ⟨-, -, hn⟩ := hwhy
      · exact hmax (hm.symm.trans h0)
      · rw [hnew, if_pos h0] at hn
        exact hn rfl

theorem Inv.remove (key : UInt64) (alloc : Bool) (hc : c.Valid) (h : Inv c hash d m) : ∃ d',
    d.remove c hash alloc key = some (m.lookup key, d') ∧ Inv c hash d' (m.erase key) ∧
    (d.nTombstones = d.tombstones → Unburied c hash d (.remove key alloc) →
      d'.nTombstones = d'.tombstones) := by
  unfold Data.remove
  cases hv : m.lookup key with
  | none =>
    rw [erase_of_lookup_eq_none hv]
    obtain hf | ⟨i, hf, hi⟩ := h.table.find_absent hv
    · exact ⟨d, by simp [hf], h, fun hd _ => hd⟩
    · exact ⟨d, by simp [hf, hi], h, fun hd _ => hd⟩
  | some value =>
    obtain ⟨i, hi⟩ := h.table.lookup_iff.1 hv
    obtain ⟨h₁, htombs, hpos⟩ := h.table.entomb hi
    have hshape := h.shape.resolve_left fun h0 => by omega
    have hn0 : d.nBuckets ≠ 0 := by
      obtain ⟨⟨a, ha⟩, -⟩ := hshape
      rw [ha]
      exact ne_of_gt (Nat.two_pow_pos _)
    obtain ⟨d', hre, hinv, hstale⟩ := h₁.rehash_shrink alloc hc
      (by rw [Data.nBuckets_put]; exact hshape.1) (h.fits.mono (Nat.sub_le _ _))
      (by rw [Data.nBuckets_put]; exact h.lt) (h.max hn0)
    refine ⟨d', ?_, hinv, fun hd hun => hstale ?_ ?_⟩
    · simp only [h.table.find_used hi, hi]
      change (d.put i .tombstone (d.size - 1) (d.nTombstones + 1)).rehash c hash alloc false >>= _ = _
      obtain hre | ⟨⟨e, hre⟩, rfl⟩ := hre
      · rw [hre]
        rfl
      · rw [hre]
        rfl
    · rw [htombs, ← hd]
      rfl
    · intro hr
      refine hun ?_ ?_
      · rw [h.table.get_eq, hv]
        rfl
      · unfold Rehashes at hr ⊢
        rwa [Data.nBuckets_put] at hr

theorem cleared_eq (h : size = j + (bs.filterMap Bucket.item).length) :
    Data.cleared size bs j = bs.filterMap Bucket.item := by
  induction bs generalizing j with
  | nil => rfl
  | cons b bs ih =>
    unfold Data.cleared
    split
    · cases hb : b.item with
      | none =>
        rw [filterMap_cons_none hb] at h ⊢
        exact ih h
      | some item =>
        rw [filterMap_cons_some hb] at h ⊢
        rw [ih (by rw [length_cons] at h; omega)]
    · rw [eq_comm, ← length_eq_zero_iff]
      omega

theorem Inv.step (hc : c.Valid) (h : Inv c hash d m) (hok : Unmasked c hash d a) :
    ∃ d' es' m', Data.step c hash d a = some (d', es') ∧ Inv c hash d' m' ∧
      (ops es').foldlM MapOp.run m = some m' ∧
      (∀ k e, .refused k e ∈ es' → e = .enospc ∧ d.size = c.maxSize ∨
        e = .enomem ∧ ∃ v, a = .insert k v false) ∧
      (d.nTombstones = d.tombstones → Unburied c hash d a → d'.nTombstones = d'.tombstones) := by
  cases a with
  | insert key value alloc =>
    obtain ⟨e, heq, hwhy⟩ | ⟨d', heq, hinv, hstale⟩ := h.insert hc hok
    · refine ⟨d, [.refused key e], m, by simp [Data.step, heq], h, rfl, ?_, fun hd _ => hd⟩
      intro k e' hmem
      obtain ⟨rfl, rfl⟩ : k = key ∧ e' = e := by simpa using hmem
      exact hwhy.imp id fun hw => ⟨hw.1, value, by rw [hw.2]⟩
    · refine ⟨d', [.did (.insert key value (m.lookup key))], m.insert key value,
        by simp [Data.step, heq], hinv, by simp [ops, Event.op, MapOp.run], ?_, hstale⟩
      simp
  | remove key alloc =>
    obtain ⟨d', heq, hinv, hstale⟩ := h.remove key alloc hc
    refine ⟨d', [.did (.remove key (m.lookup key))], m.erase key, by simp [Data.step, heq], hinv,
      by simp [ops, Event.op, MapOp.run], by simp, hstale⟩
  | get key =>
    refine ⟨d, [.did (.get key (m.lookup key))], m, ?_, h, by simp [ops, Event.op, MapOp.run],
      by simp, fun hd _ => hd⟩
    rw [← h.table.get_eq]
    rfl
  | clear =>
    have hcl : Data.cleared d.size d.buckets 0 = d.items :=
      cleared_eq (by rw [h.table.size_eq, zero_add, Data.items])
    refine ⟨.empty, [.did (.visit d.items), .did .clear], ∅, ?_, .empty, ?_, by simp,
      fun _ _ => rfl⟩
    · rw [← hcl]
      rfl
    · simp [ops, Event.op, MapOp.run, h.table.lists]

/-- With a load factor below 100, it is a finite map as long as no insertion meets a tombstone
before a key that it has and no size overflows: each key is in one bucket, and every call
returns, an insertion with an error only if the map is full or there is no memory. The tombstones
are counted right if, besides, no entries move while some are counted. -/
theorem oa_lp_finite_map (hbits : 16 ≤ sizeBits) (h1 : 1 ≤ loadFactor) (h100 : loadFactor < 100) :
    (∀ es d, Reaches (oaLp (sysHashmapConfig sizeBits maxSize loadFactor) hash)
        (Unmasked (sysHashmapConfig sizeBits maxSize loadFactor) hash) es d →
      ∃ m, (ops es).foldlM MapOp.run ∅ = some m ∧
        (∀ i j key v w, d.bucket i = .used key v → d.bucket j = .used key w → i = j) ∧
        d.size = m.keys.card ∧ (∀ key, d.get hash key = m.lookup key) ∧
        ∀ a, Unmasked (sysHashmapConfig sizeBits maxSize loadFactor) hash d a → ∃ d' es',
          (oaLp (sysHashmapConfig sizeBits maxSize loadFactor) hash).step d a = some (d', es') ∧
          ∀ k e, .refused k e ∈ es' → e = .enospc ∧ d.size = maxSize ∨
            e = .enomem ∧ ∃ v, a = .insert k v false) ∧
    ∀ es d, Reaches (oaLp (sysHashmapConfig sizeBits maxSize loadFactor) hash)
        (fun d a => Unmasked (sysHashmapConfig sizeBits maxSize loadFactor) hash d a ∧
          Unburied (sysHashmapConfig sizeBits maxSize loadFactor) hash d a) es d →
      d.nTombstones = d.buckets.count .tombstone := by
  have hc : (sysHashmapConfig sizeBits maxSize loadFactor).Valid := config_valid hbits h1 h100
  have hmax : maxSize = (sysHashmapConfig sizeBits maxSize loadFactor).maxSize := rfl
  generalize sysHashmapConfig sizeBits maxSize loadFactor = c at hc hmax
  refine ⟨fun es d h => ?_, fun es d h => ?_⟩
  · have hinv : ∃ m, (ops es).foldlM MapOp.run ∅ = some m ∧ Inv c hash d m := by
      refine h.invariant (I := fun es d => ∃ m, (ops es).foldlM MapOp.run ∅ = some m ∧ Inv c hash d m)
        ⟨∅, rfl, .empty⟩ ?_
      rintro es t a u es' ⟨m, hrun, hi⟩ hok hstep
      obtain ⟨d', es'', m', heq, hi', hrun', -⟩ := hi.step hc hok
      obtain ⟨rfl, rfl⟩ : d' = u ∧ es'' = es' := by simpa using heq.symm.trans hstep
      exact ⟨m', by rw [ops, List.filterMap_append, foldlM_append, ← ops, hrun]; exact hrun', hi'⟩
    obtain ⟨m, hrun, hi⟩ := hinv
    refine ⟨m, hrun, fun i j key v w => hi.table.unique, hi.table.size_eq_card,
      fun key => hi.table.get_eq, fun a ha => ?_⟩
    obtain ⟨d', es', -, heq, -, -, hwhy, -⟩ := hi.step hc ha
    rw [hmax]
    exact ⟨d', es', heq, hwhy⟩
  · have hinv : (∃ m, Inv c hash d m) ∧ d.nTombstones = d.tombstones := by
      refine h.invariant (I := fun _ d => (∃ m, Inv c hash d m) ∧ d.nTombstones = d.tombstones)
        ⟨⟨∅, .empty⟩, rfl⟩ ?_
      rintro - t a u es' ⟨⟨m, hi⟩, hd⟩ ⟨hok, hun⟩ hstep
      obtain ⟨d', es'', m', heq, hi', -, -, hstale⟩ := hi.step hc hok
      obtain ⟨rfl, rfl⟩ : d' = u ∧ es'' = es' := by simpa using heq.symm.trans hstep
      exact ⟨⟨m', hi'⟩, hstale hd hun⟩
    exact hinv.2

def default32 : Config := sysHashmapConfig 32 (2 ^ 32 - 1) 75

def fiveKeys : List Call := [.insert 1 10 true, .insert 2 20 true, .insert 3 30 true,
  .insert 4 40 true, .insert 5 50 true]

theorem oa_lp_finite_map_tombstone : ∃ es d m,
    Reaches (oaLp default32 fun _ => 0)
      (fun d a => Unmasked default32 (fun _ => 0) d a ∧ Unburied default32 (fun _ => 0) d a) es d ∧
    (ops es).foldlM MapOp.run ∅ = some m ∧ d.size = m.keys.card ∧ d.size = 5 ∧
    m.lookup 5 = some 50 ∧ m.lookup 1 = none ∧ d.nTombstones = d.buckets.count .tombstone := by
  obtain ⟨es, d, hrun, hsize, h5, h1⟩ := Reaches.of_exec (oaLp default32 fun _ => 0)
    (fun d a => Unmasked default32 (fun _ => 0) d a ∧ Unburied default32 (fun _ => 0) d a)
    (fiveKeys ++ [.remove 1 true, .get 5, .insert 6 60 true])
    (fun _ d => d.size = 5 ∧ d.get (fun _ => 0) 5 = some 50 ∧
      d.get (fun _ => 0) 1 = none) (by decide +kernel)
  have hmap := @oa_lp_finite_map 32 (2 ^ 32 - 1) 75 (fun _ => 0) (by decide) (by decide) (by decide)
  obtain ⟨m, hops, -, hcard, hget, -⟩ := hmap.1 es d (hrun.mono fun _ _ h => h.1)
  exact ⟨es, d, m, hrun, hops, hcard, hsize, (hget 5).symm.trans h5, (hget 1).symm.trans h1,
    hmap.2 es d hrun⟩

/-- An insertion of the key 2 stops at the tombstone before it, and the key is in two buckets.
And a map that one entry was put in and removed from has no buckets and counts a tombstone. -/
theorem oa_lp_duplicates_key :
    (∃ es d, Reaches (oaLp default32 fun _ => 0) (fun _ _ => True) es d ∧
      (ops es).foldlM MapOp.run ∅ = none ∧ .did (.insert 2 21 none) ∈ es ∧
      d.bucket 0 = .used 2 21 ∧ d.bucket 1 = .used 2 20 ∧ d.size = 5) ∧
    ∃ es d, Reaches (oaLp default32 fun _ => 0) (fun _ _ => True) es d ∧
      d.nTombstones = 1 ∧ d.buckets = [] := by
  constructor
  · exact Reaches.of_exec _ _ (fiveKeys ++ [.remove 1 true, .insert 2 21 true]) _ (by decide +kernel)
  · exact Reaches.of_exec _ _ [.insert 1 10 true, .remove 1 true] _ (by decide +kernel)

end OaLp

end ZephyrRtos.HashMap
