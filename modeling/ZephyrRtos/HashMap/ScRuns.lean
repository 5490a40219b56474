import ZephyrRtos.HashMap.Sc

namespace ZephyrRtos.HashMap.Sc

open List Lib

variable {c : Config} {sizeBits maxSize loadFactor : ℕ} {hash : UInt64 → UInt32} {d d' : Data}
  {m : FiniteMap UInt64 UInt64} {asserts alloc allocEntry : Bool} {key value old : UInt64}
  {a : Call}

/-- What `SYS_HASHMAP_CONFIG` gives for a load factor below 200. -/
structure Valid (c : Config) : Prop where
  bits : 16 ≤ c.sizeBits
  pos : 1 ≤ c.loadFactor
  lt : c.loadFactor < 200
  initial_pos : 0 < c.initialNBuckets
  initial_lt : c.initialNBuckets < 2 ^ 8

theorem config_valid (maxSize : ℕ) (hbits : 16 ≤ sizeBits) (h1 : 1 ≤ loadFactor)
    (h200 : loadFactor < 200) : Valid (sysHashmapConfig sizeBits maxSize loadFactor) := by
  have hlf : (sysHashmapConfig sizeBits maxSize loadFactor).loadFactor = loadFactor :=
    Nat.mod_eq_of_lt (by omega)
  have hall : ∀ lf < 200, 1 ≤ lf → 0 < nhpot (divRoundUp 100 lf) % 2 ^ 8 := by decide +kernel
  exact ⟨hbits, by omega, by omega, hall loadFactor h200 h1, Nat.mod_lt _ (by decide)⟩

/-- The buckets are reallocated with entries in the map, and there is no memory for them. -/
def Loses (c : Config) (alloc grow : Bool) (size nBuckets : ℕ) : Prop :=
  c.shouldRehash grow size nBuckets 0 = true ∧ alloc = false ∧ size ≠ 0

instance {grow : Bool} {size nBuckets : ℕ} : Decidable (Loses c alloc grow size nBuckets) :=
  inferInstanceAs (Decidable (_ ∧ _))

/-- No reallocation of the buckets fails while the map has entries, the sizes do not overflow,
and with assertions the first entry has memory if the buckets had. -/
def Sound (c : Config) (hash : UInt64 → UInt32) (asserts : Bool) (d : Data) : Call → Prop
  | .insert key _ alloc allocEntry => d.get hash asserts key = some none →
      c.Fits (d.size + 1) ∧ ¬ Loses c alloc true d.size d.nBuckets ∧
      (asserts = true → d.size = 0 → alloc = true → allocEntry = true)
  | .remove key alloc => d.get hash asserts key ≠ some none →
      ¬ Loses c alloc false (d.size - 1) d.nBuckets
  | _ => True

instance : (a : Call) → Decidable (Sound c hash asserts d a)
  | .insert .. => inferInstanceAs (Decidable (_ → _))
  | .remove .. => inferInstanceAs (Decidable (_ → ¬ _))
  | .get _ | .foreach | .clear => inferInstanceAs (Decidable True)

structure Inv (c : Config) (hash : UInt64 → UInt32) (asserts : Bool) (d : Data)
    (m : FiniteMap UInt64 UInt64) : Prop where
  chains : Chains hash d m
  none : d.nBuckets = 0 → d.size = 0
  room : d.nBuckets ≠ 0 → d.size < 2 * d.nBuckets
  fits : c.Fits d.size
  lt : d.nBuckets < 2 ^ c.sizeBits
  asserted : asserts = true → d.nBuckets ≠ 0 → d.size ≠ 0

theorem Inv.empty : Inv c hash asserts .empty ∅ where
  chains := .fresh hash 0
  none _ := rfl
  room h := absurd rfl h
  fits := by simp [Config.Fits, Data.empty]
  lt := by simp [Data.nBuckets, Data.empty]
  asserted _ h := absurd rfl h

theorem Inv.get_eq (h : Inv c hash asserts d m) : d.get hash asserts key = some (m.lookup key) := by
  unfold Data.get
  rw [h.chains.find_eq key h.asserted]
  cases m.lookup key <;> rfl

theorem lt_of_not_rehash (hlf : c.loadFactor < 200) (hfits : c.Fits (size + 1))
    (h : c.shouldRehash true size nBuckets 0 = false) :
    nBuckets ≠ 0 ∧ size + 1 < 2 * nBuckets := by
  have hsize : c.newSize true size = size + 1 := Config.newSize_grow hfits
  have hsum : c.sizeT (size + 1) = size + 1 := by
    apply Config.sizeT_of_lt
    unfold Config.Fits at hfits
    omega
  simp only [Config.shouldRehash, hsize, hsum, Config.sizeT_of_lt hfits, Bool.true_and, Bool.not_true, Bool.false_and, Bool.or_false, Bool.or_eq_false_iff, beq_eq_false_iff_ne, decide_eq_false_iff_not] at h
  obtain ⟨hn, hle⟩ := h
  have hdiv : (size + 1) * 100 / nBuckets < 200 := by omega
  have hlt := (Nat.div_lt_iff_lt_mul (by omega)).1 hdiv
  exact ⟨hn, by omega⟩

theorem Inv.newNBuckets_grow (hc : Valid c) (h : Inv c hash asserts d m)
    (hfits : c.Fits (d.size + 1)) (hs : c.shouldRehash true d.size d.nBuckets 0 = true) :
    c.newNBuckets true d.size d.nBuckets ≠ 0 ∧
    c.newNBuckets true d.size d.nBuckets < 2 ^ c.sizeBits ∧
    d.size + 1 < 2 * c.newNBuckets true d.size d.nBuckets := by
  have hpow : 2 ^ 16 ≤ 2 ^ c.sizeBits := Nat.pow_le_pow_right (by decide) hc.bits
  have hpos := hc.initial_pos
  have hlt := hc.initial_lt
  by_cases h0 : d.size = 0
  · -- an empty map that has buckets has few of them
    have hfew : d.nBuckets < 100 := by
      have hone : c.newSize true 0 = 1 := Config.newSize_grow (h0 ▸ hfits)
      have h1 : c.sizeT 1 = 1 := Config.sizeT_of_lt (by omega)
      have h100 : c.sizeT 100 = 100 := Config.sizeT_of_lt (by omega)
      rw [h0] at hs
      simp only [Config.shouldRehash, hone, h1, h100, Bool.true_and, Bool.not_true, Bool.false_and, Bool.or_false, Bool.or_eq_true, beq_iff_eq, decide_eq_true_eq] at hs
      obtain hs | hs := hs
      · omega
      · have hp := hc.pos
        apply Classical.byContradiction
        intro hge
        have hle : 100 / d.nBuckets ≤ 1 := Nat.div_le_of_le_mul (by omega)
        omega
    have hnew : c.newNBuckets true d.size d.nBuckets = d.nBuckets + c.initialNBuckets := by
      have hone : c.newSize true 0 = 1 := Config.newSize_grow (h0 ▸ hfits)
      have hsum : c.sizeT (d.nBuckets + c.initialNBuckets) = d.nBuckets + c.initialNBuckets :=
        Config.sizeT_of_lt (by omega)
      simp [Config.newNBuckets, h0, hone, hsum]
    omega
  · have hn : d.nBuckets ≠ 0 := fun hn => h0 (h.none hn)
    obtain ⟨hnew, hlt'⟩ := Config.newNBuckets_grow hc.pos h0
      (show c.Fits (d.size + 1 + 0) from hfits) hs hn
    have hroom := h.room hn
    omega

theorem Chains.rebuild_nil (h : Chains hash d m) (h0 : d.size = 0) :
    Data.insertAll hash d.toList.2 d.toList.1 = some d := by
  have hnil : d.buckets.flatten = [] := by
    rw [← length_eq_zero_iff]
    exact h.size_eq.symm.trans h0
  have hmap : d.buckets.map (fun _ => []) = d.buckets := by
    refine (map_congr_left fun bucket hmem => ?_).trans (map_id _)
    exact (flatten_eq_nil_iff.1 hnil bucket hmem).symm
  unfold Data.toList
  rw [hnil, hmap]
  rfl

theorem Inv.rehash_grow (hc : Valid c) (h : Inv c hash asserts d m) (hfits : c.Fits (d.size + 1))
    (hloses : ¬ Loses c alloc true d.size d.nBuckets) :
    d.rehash c hash alloc true = some (.error .enomem, d) ∧ alloc = false ∨
    ∃ d₁, d.rehash c hash alloc true = some (.ok (), d₁) ∧ Chains hash d₁ m ∧ d₁.nBuckets ≠ 0 ∧
      d₁.nBuckets < 2 ^ c.sizeBits ∧ d₁.size = d.size ∧ d.size + 1 < 2 * d₁.nBuckets ∧
      (d₁ = d ∨ alloc = true) := by
  unfold Data.rehash
  cases hs : c.shouldRehash true d.size d.nBuckets 0 with
  | false =>
    obtain ⟨hn, hlt⟩ := lt_of_not_rehash hc.lt hfits hs
    exact .inr ⟨d, rfl, h.chains, hn, h.lt, rfl, hlt, .inl rfl⟩
  | true =>
    obtain ⟨hn0, hlt, hroom⟩ := h.newNBuckets_grow hc hfits hs
    simp only [Bool.not_true, Bool.false_eq_true, if_false]
    cases alloc with
    | false =>
      have h0 : d.size = 0 := Classical.byContradiction fun h0 => hloses ⟨hs, rfl, h0⟩
      rw [if_pos ⟨rfl, hn0⟩, h.chains.rebuild_nil h0]
      exact .inl ⟨rfl, rfl⟩
    | true =>
      obtain ⟨d₁, hall, h₁, hn₁⟩ := h.chains.moved (fun _ => hn0)
      refine .inr ⟨d₁, by simp [Data.toList, hall], h₁, by omega, by omega, ?_, by omega, .inr rfl⟩
      rw [h₁.size_eq_card, ← h.chains.size_eq_card]

theorem Inv.insert (hc : Valid c) (h : Inv c hash asserts d m)
    (hok : Sound c hash asserts d (.insert key value alloc allocEntry)) :
    (∃ d', d.insert c hash asserts alloc allocEntry key value = some (.error .enomem, d') ∧
      Inv c hash asserts d' m ∧ d'.size = d.size ∧ (alloc = false ∨ allocEntry = false)) ∨
    ∃ d', d.insert c hash asserts alloc allocEntry key value = some (.ok (m.lookup key), d') ∧
      Inv c hash asserts d' (m.insert key value) := by
  have hfind := h.chains.find_eq key h.asserted
  unfold Data.insert
  simp only [hfind]
  cases hv : m.lookup key with
  | some old =>
    have hsize : d.size ≠ 0 := by
      rw [h.chains.size_eq_card]
      exact Finset.card_ne_zero_of_mem (Finmap.mem_keys.2 (Finmap.mem_of_lookup_eq_some hv))
    have hn : d.nBuckets ≠ 0 := fun hn => hsize (h.none hn)
    have hlen : ∀ f size, (⟨d.buckets.modify (d.bucketOf hash key) f, size⟩ : Data).nBuckets =
        d.nBuckets := fun f size => length_modify ..
    exact .inr ⟨_, rfl, h.chains.setValue hn hv, fun h0 => absurd ((hlen ..).symm.trans h0) hn,
      fun _ => by rw [hlen]; exact h.room hn, h.fits, by rw [hlen]; exact h.lt, fun _ _ => hsize⟩
  | none =>
    obtain ⟨hfits, hloses, hfirst⟩ := hok (by rw [h.get_eq, hv])
    obtain ⟨heq, hal⟩ | ⟨d₁, heq, h₁, hn₁, hlt₁, hsize₁, hroom, hwhich⟩ :=
      h.rehash_grow hc hfits hloses
    · exact .inl ⟨d, by simp [heq], h, rfl, .inl hal⟩
    simp only [heq]
    cases allocEntry with
    | false =>
      refine .inl ⟨d₁, rfl, ⟨h₁, fun h0 => absurd h0 hn₁, fun _ => by omega, hsize₁ ▸ h.fits, hlt₁,
        fun has _ h0 => ?_⟩, hsize₁, .inr rfl⟩
      obtain rfl | hal := hwhich
      · exact h.asserted has hn₁ h0
      · exact absurd (hfirst has (hsize₁ ▸ h0) hal) nofun
    | true =>
      obtain ⟨d', hins, h', hn', hsize'⟩ := h₁.insertEntry value hn₁ hv
      refine .inr ⟨d', by simp [hins], h', fun h0 => absurd (hn'.symm.trans h0) hn₁,
        fun _ => by omega, ?_, by omega, fun _ _ => by omega⟩
      rwa [hsize', hsize₁]

theorem lt_of_rehash (hlf : c.loadFactor < 200) (hfits : c.Fits size) (hsize : size ≠ 0)
    (hn : nBuckets < 2 ^ c.sizeBits) (hn2 : 2 ≤ nBuckets)
    (h : c.shouldRehash false size nBuckets 0 = true) : size < 2 * (nBuckets / 2) := by
  have hlt : size < 2 ^ c.sizeBits := by
    unfold Config.Fits at hfits
    omega
  have hs : c.newSize false size = size := Config.sizeT_of_lt (by simpa using hlt)
  simp only [Config.shouldRehash, hs, Config.newNBuckets_shrink hlt hn, hsize, if_false,
    Config.sizeT_of_lt hfits, Bool.false_and, Bool.not_false, Bool.true_and, Bool.false_or,
    Bool.or_eq_true, beq_iff_eq, decide_eq_true_eq] at h
  have hdiv : size * 100 / (nBuckets / 2) < 200 := by omega
  have hlt := (Nat.div_lt_iff_lt_mul (by omega)).1 hdiv
  omega

theorem Chains.rehash_shrink (asserts : Bool) (hc : Valid c) (h : Chains hash d m) (hn : d.nBuckets ≠ 0)
    (hroom : d.size + 1 < 2 * d.nBuckets) (hfits : c.Fits d.size)
    (hlt : d.nBuckets < 2 ^ c.sizeBits) (hloses : ¬ Loses c alloc false d.size d.nBuckets) :
    ∃ d', d.rehash c hash alloc false = some (.ok (), d') ∧ Inv c hash asserts d' m := by
  have hsize : d.size < 2 ^ c.sizeBits := by
    unfold Config.Fits at hfits
    omega
  have hnew := Config.newNBuckets_shrink hsize hlt
  unfold Data.rehash
  cases hs : c.shouldRehash false d.size d.nBuckets 0 with
  | false =>
    refine ⟨d, rfl, h, fun h0 => absurd h0 hn, fun _ => by omega, hfits, hlt, fun _ _ h0 => ?_⟩
    rw [h0, Config.shouldRehash_empty hlt] at hs
    simp at hs
  | true =>
    simp only [Bool.not_true, Bool.false_eq_true, if_false]
    by_cases h0 : d.size = 0
    · rw [if_pos h0] at hnew
      obtain ⟨d', hall, h', hn'⟩ := h.moved (absurd h0)
      have hs' : d'.size = 0 := by rw [h'.size_eq_card, ← h.size_eq_card, h0]
      rw [if_neg fun hbad => hbad.2 hnew, hnew]
      exact ⟨d', by rw [Data.toList, hall]; rfl, h', fun _ => hs', fun hne => absurd hn' hne,
        by rw [hs', ← h0]; exact hfits, by omega, fun _ hne => absurd hn' hne⟩
    have hal : alloc = true := by
      cases alloc
      · exact absurd ⟨hs, rfl, h0⟩ hloses
      · rfl
    have hroom' := lt_of_rehash hc.lt hfits h0 hlt (by omega) hs
    rw [if_neg h0] at hnew
    obtain ⟨d', hall, h', hn'⟩ := h.moved (n := d.nBuckets / 2) fun _ => by omega
    have hs' : d'.size = d.size := by rw [h'.size_eq_card, ← h.size_eq_card]
    rw [hal, hnew]
    exact ⟨d', by simp [Data.toList, hall], h', fun hz => by omega, fun _ => by omega,
      hs' ▸ hfits, by omega, fun _ _ => by omega⟩

theorem Inv.remove (hc : Valid c) (h : Inv c hash asserts d m)
    (hok : Sound c hash asserts d (.remove key alloc)) :
    ∃ d', d.remove c hash asserts alloc key = some (m.lookup key, d') ∧
      Inv c hash asserts d' (m.erase key) := by
  have hfind := h.chains.find_eq key h.asserted
  unfold Data.remove
  simp only [hfind, Option.bind_eq_bind, Option.bind_some]
  cases hv : m.lookup key with
  | none =>
    rw [erase_of_lookup_eq_none hv]
    exact ⟨d, rfl, h⟩
  | some old =>
    have hloses := hok (by rw [h.get_eq, hv]; simp)
    have hsize : d.size ≠ 0 := by
      rw [h.chains.size_eq_card]
      exact Finset.card_ne_zero_of_mem (Finmap.mem_keys.2 (Finmap.mem_of_lookup_eq_some hv))
    have hn : d.nBuckets ≠ 0 := fun hn => hsize (h.none hn)
    have h₁ := h.chains.eraseEntry hn hv
    obtain ⟨d₁, hd₁⟩ : ∃ d₁ : Data, ⟨d.buckets.modify (d.bucketOf hash key)
      (·.eraseP (·.1 == key)), d.size - 1⟩ = d₁ := ⟨_, rfl⟩
    have hn₁ : d₁.nBuckets = d.nBuckets := by
      rw [← hd₁]
      exact length_modify ..
    have hsize₁ : d₁.size = d.size - 1 := by rw [← hd₁]
    rw [hd₁] at h₁
    have hroom := h.room hn
    obtain ⟨d', hre, hinv⟩ := h₁.rehash_shrink asserts hc (by omega)
      (by omega) (h.fits.mono (by omega)) (hn₁ ▸ h.lt) (by rw [hsize₁, hn₁]; exact hloses)
    refine ⟨d', ?_, hinv⟩
    simp only [Option.map_some, hd₁, hre, Option.bind_some]
    rw [if_neg (by simp [Except.toOption])]
    rfl

theorem Inv.step (hc : Valid c) (h : Inv c hash asserts d m) (hok : Sound c hash asserts d a) :
    ∃ d' es' m', Data.step c hash asserts d a = some (d', es') ∧ Inv c hash asserts d' m' ∧
      (ops es').foldlM MapOp.run m = some m' ∧
      ∀ k e, .refused k e ∈ es' → d'.size = d.size ∧ m' = m ∧
        ∃ v alloc allocEntry, a = .insert k v alloc allocEntry ∧
          (alloc = false ∨ allocEntry = false) := by
  cases a with
  | insert key value alloc allocEntry =>
    obtain ⟨d', heq, hinv, hsize, hwhy⟩ | ⟨d', heq, hinv⟩ := h.insert hc hok
    · refine ⟨d', [.refused key .enomem], m, by simp [Data.step, heq], hinv, rfl, ?_⟩
      intro k e hmem
      obtain ⟨rfl, rfl⟩ : k = key ∧ e = .enomem := by simpa using hmem
      exact ⟨hsize, rfl, value, alloc, allocEntry, rfl, hwhy⟩
    · exact ⟨d', [.did (.insert key value (m.lookup key))], m.insert key value,
        by simp [Data.step, heq], hinv, by simp [ops, Event.op, MapOp.run], by simp⟩
  | remove key alloc =>
    obtain ⟨d', heq, hinv⟩ := h.remove hc hok
    exact ⟨d', [.did (.remove key (m.lookup key))], m.erase key, by simp [Data.step, heq], hinv,
      by simp [ops, Event.op, MapOp.run], by simp⟩
  | get key =>
    exact ⟨d, [.did (.get key (m.lookup key))], m, by simp [Data.step, h.get_eq], h,
      by simp [ops, Event.op, MapOp.run], by simp⟩
  | foreach =>
    exact ⟨d, [.did (.visit d.items)], m, by simp [Data.step, h.chains.foreach], h,
      by simp [ops, Event.op, MapOp.run, h.chains.lists], by simp⟩
  | clear =>
    exact ⟨.empty, [.did (.visit d.items), .did .clear], ∅, rfl, .empty,
      by simp [ops, Event.op, MapOp.run, h.chains.lists], by simp⟩

/-- With a load factor below 200, it is a finite map under any allocation failures but that of a
reallocation with entries (or, where assertions are on, that of the first entry): iterations
visit each key once, every call returns, and an insertion that has no memory changes neither the
size nor what is found. -/
theorem sc_finite_map {es : List Event} (hbits : 16 ≤ sizeBits) (h1 : 1 ≤ loadFactor)
    (h200 : loadFactor < 200)
    (h : Reaches (sc (sysHashmapConfig sizeBits maxSize loadFactor) hash asserts)
      (Sound (sysHashmapConfig sizeBits maxSize loadFactor) hash asserts) es d) :
    ∃ m, (ops es).foldlM MapOp.run ∅ = some m ∧ d.size = m.keys.card ∧
      (∀ key, d.get hash asserts key = some (m.lookup key)) ∧
      (∃ visited, d.foreach = some visited ∧ Lists visited m) ∧
      ∀ a, Sound (sysHashmapConfig sizeBits maxSize loadFactor) hash asserts d a → ∃ d' es',
        (sc (sysHashmapConfig sizeBits maxSize loadFactor) hash asserts).step d a = some (d', es') ∧
        ∀ k e, .refused k e ∈ es' → d'.size = d.size ∧
          (∀ key, d'.get hash asserts key = d.get hash asserts key) ∧
          ∃ v alloc allocEntry, a = .insert k v alloc allocEntry ∧
            (alloc = false ∨ allocEntry = false) := by
  have hc := config_valid maxSize hbits h1 h200
  have hinv : ∃ m, (ops es).foldlM MapOp.run ∅ = some m ∧
      Inv (sysHashmapConfig sizeBits maxSize loadFactor) hash asserts d m := by
    refine h.invariant (I := fun es d => ∃ m, (ops es).foldlM MapOp.run ∅ = some m ∧
      Inv (sysHashmapConfig sizeBits maxSize loadFactor) hash asserts d m) ⟨∅, rfl, .empty⟩ ?_
    rintro es t a u es' ⟨m, hrun, hi⟩ hok hstep
    obtain ⟨d', es'', m', heq, hi', hrun', -⟩ := hi.step hc hok
    obtain ⟨rfl, rfl⟩ : d' = u ∧ es'' = es' := by simpa using heq.symm.trans hstep
    exact ⟨m', by rw [ops, filterMap_append, foldlM_append, ← ops, hrun]; exact hrun', hi'⟩
  obtain ⟨m, hrun, hi⟩ := hinv
  refine ⟨m, hrun, hi.chains.size_eq_card, fun key => hi.get_eq,
    ⟨d.items, hi.chains.foreach, hi.chains.lists⟩, fun a ha => ?_⟩
  obtain ⟨d', es', m', heq, hi', -, hwhy⟩ := hi.step hc ha
  refine ⟨d', es', heq, fun k e hmem => ?_⟩
  obtain ⟨hsize, rfl, hcall⟩ := hwhy k e hmem
  exact ⟨hsize, fun key => by rw [hi'.get_eq, hi.get_eq], hcall⟩

def default32 : Config := sysHashmapConfig 32 (2 ^ 32 - 1) 75

theorem sc_finite_map_no_entry : ∃ es d m,
    Reaches (sc default32 (fun _ => 0) true) (Sound default32 (fun _ => 0) true) es d ∧
    .refused 2 .enomem ∈ es ∧ d.nBuckets = 4 ∧ (ops es).foldlM MapOp.run ∅ = some m ∧
    m.lookup 2 = none ∧ m.lookup 3 = some 30 ∧ d.size = m.keys.card := by
  obtain ⟨es, d, hrun, hmem, hn, h2, h3⟩ := Reaches.of_exec (sc default32 (fun _ => 0) true)
    (Sound default32 (fun _ => 0) true)
    [.insert 1 10 true true, .insert 2 20 true false, .insert 3 30 true true, .foreach]
    (fun es d => .refused 2 .enomem ∈ es ∧ d.nBuckets = 4 ∧
      d.get (fun _ => 0) true 2 = some none ∧ d.get (fun _ => 0) true 3 = some (some 30))
    (by decide +kernel)
  obtain ⟨m, hops, hcard, hget, -⟩ := sc_finite_map (by decide) (by decide) (by decide) hrun
  exact ⟨es, d, m, hrun, hmem, hn, hops, Option.some.inj ((hget 2).symm.trans h2),
    Option.some.inj ((hget 3).symm.trans h3), hcard⟩

/-- The buckets cannot grow for a second entry: putting the first one back counts it again. -/
theorem sc_failed_insert_changes_size : ∃ es d,
    Reaches (sc default32 (fun _ => 0) true) (fun _ _ => True) (es ++ [.refused 2 .enomem]) d ∧
    (ops es).foldlM MapOp.run ∅ = some (Finmap.singleton 1 10) ∧
    d.buckets.flatten = [(1, 10)] ∧ d.size = 2 ∧ d.foreach = none := by
  obtain ⟨-, d, hrun, rfl, hstate⟩ := Reaches.of_exec (sc default32 (fun _ => 0) true)
    (fun _ _ => True) [.insert 1 10 true true, .insert 2 20 false true]
    (fun es d => es = [.did (.insert 1 10 none)] ++ [.refused 2 .enomem] ∧
      d.buckets.flatten = [(1, 10)] ∧ d.size = 2 ∧ d.foreach = none) (by decide +kernel)
  exact ⟨_, d, hrun, by decide +kernel, hstate⟩

end ZephyrRtos.HashMap.Sc
