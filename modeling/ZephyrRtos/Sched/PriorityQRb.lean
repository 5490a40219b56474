import ZephyrRtos.Sched.PriorityQ
import ZephyrRtos.Sys.RbInsert
import ZephyrRtos.Sys.RbQuery
import ZephyrRtos.Sys.RbRemove

namespace ZephyrRtos.Sched

open List Function Lib Sys RbTree RbPath

variable {τ : Type} {prio : τ → ℤ} {k : τ → ℕ} {t u : τ} {q l : List τ} {tr : Rbtree τ} {T : RbTree τ}

theorem lessthan_iff : zPriqRbLessthan prio k t u = true ↔
    prio t < prio u ∨ prio t = prio u ∧ k t < k u := by
  rw [zPriqRbLessthan]
  simp only [prioCmp_pos, prioCmp_neg]
  split
  · simp_all
  · split
    · have : ¬prio t = prio u := by omega
      simp_all
    · have : prio t = prio u := by omega
      simp_all

theorem guides_of_sorted (h : l.Pairwise (zPriqRbLessthan prio k · ·)) :
    Guides (dirTo (zPriqRbLessthan prio k) t) t l := by
  refine h.imp fun {a b} hab => ⟨fun _ ha => ?_, fun _ hb => ?_⟩
  · have ha : zPriqRbLessthan prio k t a = true := by
      by_contra hn
      simp [dirTo, hn] at ha
    rw [lessthan_iff] at hab ha
    have : zPriqRbLessthan prio k t b = true := lessthan_iff.2 (by omega)
    refine ⟨?_, if_pos this⟩
    rintro rfl
    omega
  · have hb : ¬zPriqRbLessthan prio k t b = true := fun hn => by simp [dirTo, hn] at hb
    rw [lessthan_iff] at hab hb
    refine ⟨?_, if_neg ?_⟩
    · rintro rfl
      omega
    · rw [lessthan_iff]
      omega

variable [DecidableEq τ]

section Renumber

theorem foldl_renumber (hnd : l.Nodup) (hlen : s + l.length < 2 ^ 32) :
    (l.foldl renumber (k, s)).2 = s + l.length ∧
    (∀ u, u ∉ l → (l.foldl renumber (k, s)).1 u = k u) ∧
    l.Pairwise (fun a b => (l.foldl renumber (k, s)).1 a < (l.foldl renumber (k, s)).1 b) ∧
    ∀ u ∈ l, s ≤ (l.foldl renumber (k, s)).1 u ∧ (l.foldl renumber (k, s)).1 u < s + l.length := by
  induction l generalizing k s with
  | nil => simp
  | cons t l ih =>
    obtain ⟨ht, hnd⟩ := nodup_cons.1 hnd
    rw [length_cons] at hlen
    have hstep : renumber (k, s) t = (update k t s, s + 1) := by
      rw [renumber, Nat.mod_eq_of_lt (by simp only; omega)]
    obtain ⟨h1, h2, h3, h4⟩ := ih (s := s + 1) hnd (by omega)
    have hts : (l.foldl renumber (update k t s, s + 1)).1 t = s := by
      rw [h2 t ht, update_self]
    rw [foldl_cons, hstep, length_cons]
    refine ⟨by omega, fun u hu => ?_, pairwise_cons.2 ⟨fun u hu => ?_, h3⟩, fun u hu => ?_⟩
    · rw [mem_cons, not_or] at hu
      rw [h2 u hu.2, update_of_ne hu.1]
    · have := h4 u hu
      omega
    · rcases mem_cons.1 hu with rfl | hu
      · omega
      · have := h4 u hu
        omega

theorem length_le_of_keys (hd : (l.map k).Nodup) (hk : ∀ u ∈ l, k u < n) : l.length ≤ n := by
  rw [← length_map (f := k), ← toFinset_card_of_nodup hd]
  refine (Finset.card_le_card fun i hi => ?_).trans_eq (Finset.card_range n)
  obtain ⟨u, hu, rfl⟩ := mem_map.1 (mem_toFinset.1 hi)
  exact mem_range.2 (hk u hu)

end Renumber

theorem insert_greatest (h : tr.Holds T) (hs : T.toList.Pairwise (zPriqRbLessthan prio k · ·))
    (hst : StableSort (keyed prio T.toList) (keyed prio q)) (ht : t ∉ T.toList)
    (hmax : ∀ u ∈ T.toList, k u < k t) : ∃ tr' T',
    rbInsert (zPriqRbLessthan prio k) tr t = .ok tr' ∧ tr'.Holds T' ∧
    T'.toList.Pairwise (zPriqRbLessthan prio k · ·) ∧
    StableSort (keyed prio T'.toList) (keyed prio (q ++ [t])) := by
  obtain ⟨tr', T', p, heq, hh, hlist, hlist', hleads⟩ := rbInsert_spec (zPriqRbLessthan prio k) h ht
  obtain ⟨hbef, haft⟩ := hleads (guides_of_sorted hs)
  rw [hlist] at hs hst hmax
  have hb : ∀ u ∈ before p, prio u ≤ prio t := fun u hu => by
    have hn : ¬zPriqRbLessthan prio k t u = true := fun hn => by
      have := (hbef u hu).2
      simp [dirTo, hn] at this
    rw [lessthan_iff] at hn
    omega
  have ha : ∀ u ∈ after p, prio t < prio u := fun u hu => by
    have hn : zPriqRbLessthan prio k t u = true := by
      by_contra hn
      have := (haft u hu).2
      simp [dirTo, hn] at this
    have := hmax u (mem_append_right _ hu)
    rw [lessthan_iff] at hn
    omega
  refine ⟨tr', T', heq, hh, ?_, ?_⟩
  · rw [hlist', pairwise_append, pairwise_cons]
    obtain ⟨h1, h2, h3⟩ := pairwise_append.1 hs
    refine ⟨h1, ⟨fun u hu => lessthan_iff.2 (.inl (ha u hu)), h2⟩, fun u hu v hv => ?_⟩
    rcases mem_cons.1 hv with rfl | hv
    · have := hb u hu
      have := hmax u (mem_append_left _ hu)
      exact lessthan_iff.2 (by omega)
    · exact h3 u hu v hv
  · have : keyed prio T'.toList = insertStable (t, prio t) (keyed prio (before p ++ after p)) := by
      rw [hlist', keyed_append, keyed_append, insertStable_append fun y hy => ?_,
        insertStable_of_lt fun y hy => ?_]
      · rfl
      · rw [mem_keyed] at hy
        exact hy.2 ▸ ha _ hy.1
      · rw [mem_keyed] at hy
        exact hy.2 ▸ hb _ hy.1
    rw [this, keyed_append (q := q)]
    exact hst.insert _

/-- The tree holds the threads of `q`, in order of priority and then of arrival. -/
structure RbRep (prio : τ → ℤ) (q : List τ) (pq : PriqRb τ) (T : RbTree τ) : Prop where
  holds : pq.tree.Holds T
  sorted : T.toList.Pairwise (zPriqRbLessthan prio pq.orderKey · ·)
  stable : StableSort (keyed prio T.toList) (keyed prio q)
  distinct : (T.toList.map pq.orderKey).Nodup
  next : pq.nextOrderKey < 2 ^ 32

namespace RbRep

variable {pq : PriqRb τ}

theorem perm (h : RbRep prio q pq T) : T.toList.Perm q := by
  have := h.stable.perm.map Prod.fst
  rwa [map_fst_keyed, map_fst_keyed] at this

theorem nodup (h : RbRep prio q pq T) : q.Nodup := h.perm.nodup_iff.1 h.holds.nodup

theorem init (m : Rbnodes τ) (k : τ → ℕ) : RbRep prio [] ⟨⟨none, 0, m⟩, 0, k⟩ nil where
  holds := ⟨⟨trivial, rfl, by simp [toList], by simp [depth]⟩, 0, ⟨rfl, rfl⟩, by simp⟩
  sorted := .nil
  stable := .nil
  distinct := .nil
  next := by simp

theorem congr (h : RbRep prio q pq T) (he : ∀ u ∈ q, prio' u = prio u) :
    RbRep prio' q pq T where
  holds := h.holds
  sorted := h.sorted.imp_of_mem fun {a b} ha hb hab => by
    rw [lessthan_iff] at hab ⊢
    rwa [he a (h.perm.mem_iff.1 ha), he b (h.perm.mem_iff.1 hb)]
  stable := by
    rw [keyed_congr he, keyed_congr fun u hu => he u (h.perm.mem_iff.1 hu)]
    exact h.stable
  distinct := h.distinct
  next := h.next

theorem best (h : RbRep prio q pq T) : zPriqRbBest pq = .ok (q.argmin prio) := by
  rw [zPriqRbBest, getMinmax_spec h.holds.toLinked h.holds.deep, ← StableSort.best h.stable]
  rfl

theorem add (h : RbRep prio q pq T) (ht : t ∉ q) (hk : ∀ u ∈ q, pq.orderKey u < pq.nextOrderKey) :
    ∃ pq' T', zPriqRbAdd prio pq t = .ok pq' ∧ RbRep prio (q ++ [t]) pq' T' ∧
      pq'.orderKey t = pq.nextOrderKey ∧
      (pq.nextOrderKey + 1 < 2 ^ 32 → pq'.nextOrderKey = pq.nextOrderKey + 1 ∧
        ∀ u ∈ q, pq'.orderKey u = pq.orderKey u) ∧
      (¬pq.nextOrderKey + 1 < 2 ^ 32 → pq'.nextOrderKey = q.length) := by
  have htT : t ∉ T.toList := fun hm => ht (h.perm.mem_iff.1 hm)
  have hkT : ∀ u ∈ T.toList, pq.orderKey u < pq.nextOrderKey := fun u hu =>
    hk u (h.perm.mem_iff.1 hu)
  set k0 := update pq.orderKey t pq.nextOrderKey with hk0
  have hold : ∀ u ∈ T.toList, k0 u = pq.orderKey u := fun u hu => by
    rw [hk0, update_of_ne]
    rintro rfl
    exact htT hu
  -- what is left once the keys are settled
  have finish : ∀ (k : τ → ℕ) (n : ℕ), n < 2 ^ 32 →
      T.toList.Pairwise (zPriqRbLessthan prio k · ·) → (T.toList.map k).Nodup →
      (∀ u ∈ T.toList, k u < k t) → ∃ tr' T',
      rbInsert (zPriqRbLessthan prio k) pq.tree t = .ok tr' ∧
        RbRep prio (q ++ [t]) ⟨tr', n, k⟩ T' := fun k n hn hs hd hmax => by
    obtain ⟨tr', T', heq, hh, hs', hst⟩ := insert_greatest h.holds hs h.stable htT hmax
    refine ⟨tr', T', heq, hh, hs', hst, ?_, hn⟩
    have hperm : T'.toList.Perm (T.toList ++ [t]) := by
      have := hst.perm.map Prod.fst
      rw [map_fst_keyed, map_fst_keyed] at this
      exact this.trans (h.perm.symm.append_right _)
    rw [(hperm.map k).nodup_iff, map_append, nodup_append]
    refine ⟨hd, by simp, fun i hi j hj => ?_⟩
    obtain ⟨u, hu, rfl⟩ := mem_map.1 hi
    obtain rfl : j = k t := by simpa using hj
    exact (hmax u hu).ne
  rw [zPriqRbAdd]
  by_cases hw : pq.nextOrderKey + 1 < 2 ^ 32
  · obtain ⟨tr', T', heq, hr⟩ := finish k0 (pq.nextOrderKey + 1) hw
      (h.sorted.imp_of_mem fun {a b} ha hb hab => by
        rwa [lessthan_iff, hold a ha, hold b hb, ← lessthan_iff])
      (by rw [map_congr_left hold]; exact h.distinct)
      (fun u hu => by rw [hold u hu, hk0, update_self]; exact hkT u hu)
    refine ⟨_, T', ?_, hr, update_self .., fun _ => ⟨rfl, fun u hu =>
      hold u (h.perm.mem_iff.2 hu)⟩, absurd hw⟩
    simp only [Nat.mod_eq_of_lt hw, pure_bind_ok, ← hk0, heq]
    rfl
  · have hnext : pq.nextOrderKey = 2 ^ 32 - 1 := by
      have := h.next
      omega
    have hlen := length_le_of_keys h.distinct hkT
    obtain ⟨h1, h2, h3, h4⟩ := foldl_renumber (s := 0) h.holds.nodup (by omega)
    have heach : rbForEach pq.tree (2 ^ pq.tree.maxDepth) pq.tree.foreachInit = .ok T.toList :=
      rbForEach_spec h.holds.toLinked
        (length_toList_lt.trans_le (Nat.pow_le_pow_right (by omega) h.holds.deep))
    set r := T.toList.foldl renumber (k0, 0) with hr
    have hrt : r.1 t = pq.nextOrderKey := by rw [h2 t htT, hk0, update_self]
    obtain ⟨tr', T', heq, hrep⟩ := finish r.1 r.2 (by omega)
      ((h.sorted.and h3).imp fun {a b} hab => by
        have := lessthan_iff.1 hab.1
        exact lessthan_iff.2 (by omega))
      (pairwise_map.2 (h3.imp fun {a b} hab => hab.ne))
      (fun u hu => by
        have := h4 u hu
        omega)
    refine ⟨_, T', ?_, hrep, hrt, fun hlt => absurd hlt hw, fun _ => ?_⟩
    rotate_left
    · rw [h1, zero_add, h.perm.length_eq]
    have hzero : (pq.nextOrderKey + 1) % 2 ^ 32 = 0 := by omega
    simp only [hzero, heach, ok_bind, pure_bind_ok, ← hk0, ← hr, heq]
    rfl

theorem remove (h : RbRep prio q pq T) (ht : t ∈ q) : ∃ pq' T', zPriqRbRemove prio pq t = .ok pq' ∧
    RbRep prio (q.erase t) pq' T' ∧ pq'.orderKey = pq.orderKey ∧
    pq'.nextOrderKey = if q.erase t = [] then 0 else pq.nextOrderKey := by
  have htT : t ∈ T.toList := h.perm.mem_iff.2 ht
  obtain ⟨y, hy⟩ : ∃ y, T.root = some y := by
    cases T with
    | nil => simp [toList] at htT
    | node c l x r => exact ⟨x, rfl⟩
  rcases rbRemove_spec (zPriqRbLessthan prio pq.orderKey) h.holds hy with
    ⟨-, hn⟩ | ⟨tr', T', l, r, heq, hh, hlist, hlist'⟩
  · exact absurd htT (hn (guides_of_sorted h.sorted))
  have hnd := h.holds.nodup
  have hnd' : t ∉ l ++ r := by
    rw [hlist] at hnd
    exact (nodup_cons.1 (nodup_middle.1 hnd)).1
  have herase : T'.toList = T.toList.erase t := by
    rw [hlist', hlist, erase_append_right _ fun hm => hnd' (mem_append_left _ hm), erase_cons_head]
  have hsub : T'.toList.Sublist T.toList := herase ▸ erase_sublist
  have hst : StableSort (keyed prio T'.toList) (keyed prio (q.erase t)) := by
    rw [herase, ← dropKey_keyed hnd, ← dropKey_keyed h.nodup]
    exact h.stable.dropKey t
  have hroot : tr'.root = none ↔ q.erase t = [] := by
    have hperm := hst.perm.map Prod.fst
    rw [map_fst_keyed, map_fst_keyed] at hperm
    rw [hh.root, root_eq_none]
    constructor
    · rintro rfl
      exact List.Perm.eq_nil hperm.symm
    · intro hq
      rw [hq] at hperm
      cases T' with
      | nil => rfl
      | node c l x r => simpa [toList] using hperm.eq_nil
  refine ⟨⟨tr', if tr'.root = none then 0 else pq.nextOrderKey, pq.orderKey⟩, T',
    by rw [zPriqRbRemove, heq]; rfl, ⟨hh, h.sorted.sublist hsub, hst,
    h.distinct.sublist (hsub.map _), ?_⟩, rfl, if_congr hroot rfl rfl⟩
  have := h.next
  simp only
  split <;> omega

end RbRep

end ZephyrRtos.Sched
