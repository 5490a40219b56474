import ZephyrRtos.Nvs.Move
import ZephyrRtos.Nvs.States

namespace ZephyrRtos.Nvs

open List Lib Sys LogStore

variable {c : Config} {f : Flash} {s : Fs} {w p o d : ℕ} {buffer : List UInt8}
  {es last done todo cs : List Entry} {hist : List (List Entry)} {e : Entry}
  {pend : Option GcWriteEntry} {V : (ℕ → List UInt8) → Prop} {Q : Prop} {val : ℕ → List UInt8}

def kept (c : Config) (pend : Option GcWriteEntry) (newer es : List Entry) : List Entry :=
  (live Entry.id Entry.data newer es).filter fun e => !GcWriteEntry.replaces c pend (e.ate c)

/-- The entries `done` of the sector `last` were looked at, and there are copies of those that are
live. The end of their data is still in the buffer. -/
structure Copied (c : Config) (pend : Option GcWriteEntry) (s : Fs) (w : ℕ)
    (hist : List (List Entry)) (last done cs : List Entry) (buffer : List UInt8) (p d o : ℕ) :
    Prop where
  collecting : Collecting c s.flash w cs (hist ++ [last]) p d o
  ateWra : s.ateWra = addrOf w o
  dataWra : s.dataWra = addrOf w d
  data_eq : p = d + buffer.length
  buffer_lt : buffer.length < c.writeBlockSize
  room : alSize c p ≤ o
  stored : Stored c (s.flash.put (base c w + d) (cells false buffer)) w cs
  length_eq : cs.length = (kept c pend hist.flatten done).length
  total_eq : p = total c (kept c pend hist.flatten done)
  total_copies : total c cs = p
  kept_copies : ∀ e ∈ cs, GcWriteEntry.replaces c pend (e.ate c) = false
  collected : LogStore.Collected Entry.id Entry.data
    (fun id => ∀ e ∈ live Entry.id Entry.data hist.flatten done,
      GcWriteEntry.replaces c pend (e.ate c) = true → e.id ≠ id) hist.flatten done cs

theorem put_eq_of_eq {a x : ℕ} {f g : Flash} {xs : List Cell} (h : f x = g x) :
    f.put a xs x = g.put a xs x := by
  unfold Cells.put
  rw [h]

theorem kept_sublist : (kept c pend (hist.flatten) es).Sublist es :=
  filter_sublist.trans live_sublist

theorem data_of_mem_kept (h : e ∈ kept c pend hist.flatten es) : e.data ≠ [] :=
  val_of_mem_live (mem_of_mem_filter h)

theorem kept_snoc : kept c pend hist.flatten (done ++ [e]) = kept c pend hist.flatten done ++
    if Live Entry.id Entry.data (hist.flatten ++ done) e ∧
      GcWriteEntry.replaces c pend (e.ate c) = false then [e] else [] := by
  rw [kept, live_snoc, filter_append]
  congr 1
  by_cases hlive : Live Entry.id Entry.data (hist.flatten ++ done) e
  · cases hrep : GcWriteEntry.replaces c pend (e.ate c) <;> simp [hrep]
  · simp [hlive]

theorem Slots.id_lt (h : Slots c f w es p o) : ∀ e ∈ es, e.id < 2 ^ 16 := by
  induction h with
  | nil => exact nofun
  | cons _ _ hfits _ ih =>
    intro e he
    obtain rfl | he := mem_cons.1 he
    · exact hfits.id_lt
    · exact ih e he

namespace Copied

section

variable (hc : c.Good) (h : Copied c pend s w hist last done cs buffer p d o)
include hc h

theorem addr_div : s.ateWra / 2 ^ 16 = w := by
  have htop := h.collecting.front.slots.le_top
  obtain ⟨-, hpos, -, hsize, hend⟩ := hc.sizes
  rw [h.ateWra, addrOf_div (by omega)]

theorem le : d ≤ o := by
  have hdata := h.data_eq
  have hal := le_alSize hc p
  have hroom := h.room
  omega

end

theorem closed (h : Copied c pend s w hist last done cs buffer p d o) :
    ∃ p o, Closed c s.flash (next c w) last p o := by
  have hfull := h.collecting.full
  obtain ⟨p', o', hclosed⟩ := h.collecting.ring.closed hist.length (by simp)
  rw [length_append, length_singleton] at hfull
  simp only [getElem_concat_length] at hclosed
  rw [show hist.length + 1 = c.sectorCount - 1 by omega, back_last h.collecting.lt] at hclosed
  exact ⟨p', o', hclosed⟩

section

variable (hc : c.Good) (h : Copied c pend s w hist (done ++ e :: todo) done cs buffer p d o)
include hc h

theorem listed :
    ∃ A, A.map Prod.snd = cs ++ hist.flatten ++ done ∧ Listed c s (A ++
      (addrOf (next c w) (top c - todo.length * ateSize c), e) :: slotsOf c (next c w) todo) := by
  have hfull := h.collecting.full
  have hlt := h.collecting.lt
  have hlisted := h.collecting.front.listed hc hlt h.collecting.ring (by omega) h.ateWra
    (h.collecting.front.not_stray hc hlt h.ateWra (h.le hc)) (.inr (by simp))
  rw [length_append, length_singleton] at hfull
  rw [ringSlots_append, show 1 + hist.length = c.sectorCount - 1 by omega, back_last hlt] at hlisted
  obtain ⟨A, hA, heq⟩ := slotsOf_append done (e :: todo)
  refine ⟨slotsOf c w cs ++ ringSlots c w 1 hist ++ A, ?_, ?_⟩
  · rw [map_append, map_append, map_snd_slotsOf, map_snd_ringSlots, hA]
  · rw [heq] at hlisted
    rwa [append_assoc, append_assoc]

theorem walk :
    ∃ r : ℕ × Ate × ℕ, walk c s (matching e.id) (walkBound c) s.ateWra = .ok r ∧
      (r.1 = addrOf (next c w) (top c - todo.length * ateSize c) ∧ (e.ate c).len ≠ 0 ↔
        Live Entry.id Entry.data (hist.flatten ++ done) e) := by
  obtain ⟨A, hA, hlisted⟩ := h.listed hc
  obtain ⟨r, hwalk, hr⟩ := hlisted.newest
  refine ⟨r, hwalk, ?_⟩
  have hlen : (e.ate c).len ≠ 0 ↔ e.data ≠ [] := not_congr Entry.len_eq_zero
  rw [hr, hlen, and_comm]
  refine and_congr_right fun _ => ⟨fun hall x hx => ?_, fun hall x hx => ?_⟩
  · obtain ⟨y, hy, rfl⟩ : ∃ y ∈ A, y.2 = x := by
      refine mem_map.1 ?_
      rw [hA, append_assoc]
      exact mem_append_right _ hx
    exact hall y hy
  have hx' : x.2 ∈ A.map Prod.snd := mem_map_of_mem hx
  rw [hA, append_assoc] at hx'
  obtain hcs | hrest := mem_append.1 hx'
  · obtain ⟨y, hy, hid⟩ := h.collected.keys _ hcs
    intro heq
    exact hall y (mem_append_right _ hy) (hid.trans heq)
  · exact hall _ hrest

end

theorem drop (h : Copied c pend s w hist last done cs buffer p d o)
    (hdrop : ¬(Live Entry.id Entry.data (hist.flatten ++ done) e ∧
      GcWriteEntry.replaces c pend (e.ate c) = false)) :
    Copied c pend s w hist last (done ++ [e]) cs buffer p d o := by
  have hkept : kept c pend hist.flatten (done ++ [e]) = kept c pend hist.flatten done := by
    rw [kept_snoc, if_neg hdrop, append_nil]
  exact {
    h with
    length_eq := hkept ▸ h.length_eq
    total_eq := hkept ▸ h.total_eq
    collected := by
      refine .drop (h.collected.mono fun k hk x hx => hk x ?_) ?_
      · rw [live_snoc]
        exact mem_append_left _ hx
      by_cases hlive : Live Entry.id Entry.data (hist.flatten ++ done) e
      · refine .inr (.inr fun hkeep => ?_)
        refine hkeep e ?_ (Bool.not_eq_false _ ▸ fun h => hdrop ⟨hlive, h⟩) rfl
        rw [live_snoc, if_pos hlive]
        exact mem_append_right _ (mem_singleton.2 rfl)
      · by_cases hdata : e.data = []
        · exact .inl hdata
        · refine .inr (.inl ?_)
          by_contra hnone
          exact hlive ⟨hdata, fun x hx hid => hnone ⟨x, hx, hid⟩⟩ }

section

variable (hc : c.Good) (h : Copied c pend s w hist (done ++ e :: todo) done cs buffer p d o)
include hc h

theorem copy (hR : Content Q (hist ++ [done ++ e :: todo]) val) (hV : V val)
    (hlive : Live Entry.id Entry.data (hist.flatten ++ done) e)
    (hrep : GcWriteEntry.replaces c pend (e.ate c) = false) :
    ∃ buffer' p' d' o' t,
      ((do
        let (buffer, gcAte) ← flashBlockMove c (addrOf (next c w) e.offset) buffer (e.ate c)
        flashAteWrt c (ateCrc8Update gcAte)
        return buffer) : Prog (List UInt8)).Returns s (OpOk c V Q) buffer' t ∧
      Copied c pend t w hist (done ++ e :: todo) (done ++ [e]) (⟨e.id, p, e.data⟩ :: cs) buffer' p' d'
        o' ∧ t.ready = s.ready := by
  have hlt := h.collecting.lt
  obtain ⟨hate, hpos, hfour, hsize, hend⟩ := hc.sizes
  have hblock := block_pos hc
  have hApos := sizeofAte_le hc
  unfold sizeofAte at hApos
  have hne : next c w ≠ w := by
    have htwo := hc.two
    unfold next
    split <;> omega
  obtain ⟨p0, o0, hclosed⟩ := h.closed
  have he : e ∈ done ++ e :: todo := by simp
  have hid : e.id ≠ 0xFFFF := by
    intro hid
    exact hlive.1 (hR.marks e (by simp) hid)
  -- there is room for the copy
  have hkept : kept c pend hist.flatten (done ++ [e]) = kept c pend hist.flatten done ++ [e] := by
    rw [kept_snoc, if_pos ⟨hlive, hrep⟩]
  have htotal : total c (kept c pend hist.flatten (done ++ [e])) = p + e.len c := by
    rw [hkept, total, map_append, sum_append, h.total_eq]
    rfl
  have hlength : (kept c pend hist.flatten (done ++ [e])).length = cs.length + 1 := by
    rw [hkept, length_append, ← h.length_eq]
    rfl
  have hroom := hclosed.slots.room (T := kept c pend hist.flatten (done ++ [e])) hc
    (kept_sublist.trans (by simp)) (by rw [hkept]; simp) fun x hx => .inl (data_of_mem_kept hx)
  rw [htotal, hlength] at hroom
  have hoff := h.collecting.front.slots.offset
  have hexp : (cs.length + 1 + 2) * ateSize c = cs.length * ateSize c + 3 * ateSize c := by
    rw [← Nat.add_mul]
  have hal := le_alSize hc (p + e.len c)
  have hdata := h.data_eq
  -- where its data is
  have hfin : e.fin c + 2 * ateSize c ≤ c.sectorSize := by
    have hle := hclosed.slots.fin_le e he
    have hle' := hclosed.slots.data_le
    have hlen := Nat.mul_le_mul_right (ateSize c) (length_pos_iff.2 hclosed.ne_nil)
    have hoff' := hclosed.slots.offset
    omega
  unfold Entry.fin at hfin
  have hsrc := hclosed.stored e he
  have hX : (buffer ++ payload c e.data).length = buffer.length + e.len c := length_append
  obtain ⟨k, hk⟩ : ∃ k, k = (buffer ++ payload c e.data).length -
    (buffer ++ payload c e.data).length % c.writeBlockSize := ⟨_, rfl⟩
  have hmod := Nat.mod_lt (buffer ++ payload c e.data).length hblock
  have hkdvd : c.writeBlockSize ∣ k := hk ▸ Nat.dvd_sub_mod _
  have htake : ((buffer ++ payload c e.data).take k).length = k := by
    rw [length_take]
    omega
  -- the blocks that are written
  have hdvd : c.writeBlockSize ∣ ((buffer ++ payload c e.data).take k).length := by
    rw [htake]
    exact hkdvd
  have hcollecting := h.collecting.put_data hc hdvd (by omega) (by omega)
  rw [htake] at hcollecting
  have hsteps : Steps c s.flash (s.ateWra / 2 ^ 16) (base c w + d) false
      ((buffer ++ payload c e.data).take k) (OpOk c V Q) := by
    rw [h.addr_div hc]
    refine h.collecting.front.steps hc (by omega) fun xs hxs hle => ⟨val, hV, ?_⟩
    exact (h.collecting.put_data hc hxs (by omega) (by omega)).shows hR
  have hmove := move_returns (G := OpOk c V Q) (e.ate c) hc hlt (next_lt hlt) hne
    h.dataWra h.buffer_lt (show e.offset + e.len c ≤ c.sectorSize by omega)
    (show e.offset + e.len c < 2 ^ 16 by omega) hsrc hk (by omega) (by omega) hsteps
  -- the entry that is written
  have hfits : Entry.Fits c ⟨e.id, p, e.data⟩ o := by
    have hlen : Entry.len c ⟨e.id, p, e.data⟩ = e.len c := rfl
    refine ⟨hclosed.slots.id_lt e he, by omega, ?_, fun _ => ?_⟩
    · show p + e.len c ≤ o
      omega
    · show alSize c (p + e.len c) + ateSize c ≤ o
      omega
  have hcollecting' := hcollecting.put_ate hc (e := ⟨e.id, p, e.data⟩) (Nat.le_refl _) hfits
    (fun hlast => by omega) hid
  have hop : OpOk c V Q _ := hcollecting.front.ate_ok hc (by omega)
    (Entry.ate c ⟨e.id, p, e.data⟩) (hcollecting.shows hR) hV
    (hcollecting'.shows hR) hV
  have hate : ateCrc8Update { e.ate c with offset := d + buffer.length } =
      Entry.ate c ⟨e.id, p, e.data⟩ := by
    rw [← hdata]
    rfl
  refine ⟨(buffer ++ payload c e.data).drop k, p + e.len c, d + k, o - ateSize c,
    { s with
      flash := putAte c (s.flash.put (base c w + d) (cells false ((buffer ++ payload c e.data).take k)))
        w o (Entry.ate c ⟨e.id, p, e.data⟩)
      ateWra := addrOf w (o - ateSize c)
      dataWra := addrOf w (d + k) }, ?_, ?_, rfl⟩
  · refine hmove.bind ?_
    dsimp only
    rw [hate]
    refine Logged.Returns.bind (ateWrt_returns _ hc hlt ?_ (by omega) (by omega) hop) .pure
    exact h.ateWra
  exact {
    collecting := hcollecting'
    ateWra := rfl
    dataWra := rfl
    data_eq := by rw [length_drop]; omega
    buffer_lt := by rw [length_drop]; omega
    room := by omega
    stored := by
      -- without the entry, the data is what was there and then the data of the entry
      have hsame : Cells.SameOn
          (s.flash.put (base c w + d) (cells false (buffer ++ payload c e.data)))
          ((putAte c (s.flash.put (base c w + d) (cells false ((buffer ++ payload c e.data).take k)))
            w o (Entry.ate c ⟨e.id, p, e.data⟩)).put (base c w + (d + k))
              (cells false ((buffer ++ payload c e.data).drop k)))
          (base c w) (base c w + (p + e.len c)) := by
        intro x h1 h2
        rw [put_eq_of_eq (g := s.flash.put (base c w + d)
          (cells false ((buffer ++ payload c e.data).take k)))]
        · nth_rewrite 3 [← take_append_drop k (buffer ++ payload c e.data)]
          rw [cells_append, Cells.put_append, length_cells, htake, Nat.add_assoc]
        · exact Cells.put_of_lt_or_le (.inl (by omega))
      rw [cells_append, Cells.put_append, length_cells, Nat.add_assoc, ← hdata] at hsame
      refine Stored.congr (p := p + e.len c) (fun x hx => ?_) hsame fun x hx => ?_
      · obtain rfl | hx := mem_cons.1 hx
        · exact bytes_put _ _ _ _
        · exact h.stored.put_data (h.collecting.front.slots.fin_le) x hx
      · obtain rfl | hx := mem_cons.1 hx
        · exact Nat.le_refl _
        · exact Nat.le_trans (h.collecting.front.slots.fin_le x hx) (Nat.le_add_right ..)
    length_eq := by rw [hlength]; rfl
    total_eq := htotal.symm
    total_copies := by
      show e.len c + total c cs = _
      rw [h.total_copies, Nat.add_comm]
    kept_copies x hx := by
      obtain rfl | hx := mem_cons.1 hx
      · exact hrep
      · exact h.kept_copies x hx
    collected := by
      refine LogStore.Collected.copy (h.collected.mono fun k hk x hx => hk x ?_) hlive rfl rfl
      rw [live_snoc]
      exact mem_append_left _ hx }

theorem move (hR : Content Q (hist ++ [done ++ e :: todo]) val) (hV : V val) :
    ∃ cs' buffer' p' d' o' t,
      (gcMove c pend (addrOf (next c w) (top c - todo.length * ateSize c)) (e.ate c) buffer).Returns s
        (OpOk c V Q) buffer' t ∧
      Copied c pend t w hist (done ++ e :: todo) (done ++ [e]) cs' buffer' p' d' o' ∧
      t.ready = s.ready := by
  obtain ⟨r, hwalk, hlive⟩ := h.walk hc
  have htop : top c - todo.length * ateSize c < 2 ^ 16 := by
    obtain ⟨-, hpos, -, hsize, hend⟩ := hc.sizes
    omega
  by_cases hcopy : Live Entry.id Entry.data (hist.flatten ++ done) e ∧
      GcWriteEntry.replaces c pend (e.ate c) = false
  · obtain ⟨buffer', p', d', o', t, hret, hcopied, hready⟩ :=
      h.copy hc hR hV hcopy.1 hcopy.2
    refine ⟨_, buffer', p', d', o', t, .bind (.reads hwalk) ?_, hcopied, hready⟩
    dsimp only
    rwa [if_pos (hlive.2 hcopy.1), hcopy.2, addrSect_addrOf htop, addrOf_add, zero_add]
  · refine ⟨cs, buffer, p, d, o, s, .bind (.reads hwalk) ?_, h.drop hcopy, rfl⟩
    dsimp only
    split
    next hcond =>
      have hrep : GcWriteEntry.replaces c pend (e.ate c) = true := by
        by_contra hrep
        exact hcopy ⟨hlive.1 hcond, Bool.eq_false_iff.2 hrep⟩
      rw [if_pos hrep]
      exact .pure
    next => exact .pure

theorem loop (hn : todo.length < n) (hR : Content Q (hist ++ [done ++ e :: todo]) val) (hV : V val) :
    ∃ cs' buffer' p' d' o' t,
      (gcLoop c pend (addrOf (next c w) (top c)) n
        (addrOf (next c w) (top c - todo.length * ateSize c)) buffer).Returns s (OpOk c V Q) buffer' t ∧
      Copied c pend t w hist (done ++ e :: todo) (done ++ e :: todo) cs' buffer' p' d' o' ∧
      t.ready = s.ready := by
  induction todo generalizing s done e cs buffer p d o n with
  | nil =>
    obtain ⟨-, rfl⟩ : ∃ m, n = m + 1 := Nat.exists_eq_add_of_le' hn
    obtain ⟨A, -, hlisted⟩ := h.listed hc
    obtain ⟨-, _, -, -, htrail⟩ := hlisted.start
    obtain ⟨cs', buffer', p', d', o', t, hret, hcopied, hready⟩ := h.move hc hR hV
    refine ⟨cs', buffer', p', d', o', t, ?_, hcopied, hready⟩
    obtain ⟨-, hvalid, b, hprev, -⟩ := htrail.suffix.head
    refine .bind (.reads hprev) ?_
    dsimp only
    rw [if_pos hvalid]
    refine hret.bind ?_
    rw [if_pos (by rw [length_nil, zero_mul, Nat.sub_zero])]
    exact .pure
  | cons e' todo ih =>
    rw [length_cons] at hn
    obtain ⟨n, rfl⟩ : ∃ m, n = m + 1 := Nat.exists_eq_add_of_le' (by omega)
    obtain ⟨A, -, hlisted⟩ := h.listed hc
    obtain ⟨-, _, -, -, htrail⟩ := hlisted.start
    obtain ⟨cs₁, buffer₁, p₁, d₁, o₁, t₁, hret₁, hcopied₁, hready₁⟩ := h.move hc hR hV
    have happ : done ++ e :: e' :: todo = done ++ [e] ++ e' :: todo := by simp
    rw [happ] at hcopied₁ hR
    obtain ⟨cs', buffer', p', d', o', t, hret, hcopied, hready⟩ :=
      ih (n := n) hcopied₁ (by omega) hR
    rw [happ]
    refine ⟨cs', buffer', p', d', o', t, ?_, hcopied, hready.trans hready₁⟩
    have hoff : (e' :: todo).length * ateSize c ≤ top c := by
      obtain ⟨p0, o0, hclosed⟩ := h.closed
      have hoff := hclosed.slots.offset
      have hle : (e' :: todo).length ≤ (done ++ e :: e' :: todo).length := by simp; omega
      have := Nat.mul_le_mul_right (ateSize c) hle
      omega
    have hne : addrOf (next c w) (top c - (e' :: todo).length * ateSize c) ≠
        addrOf (next c w) (top c) := by
      have hpos := sizeofAte_le hc
      have hlen := Nat.mul_le_mul_right (ateSize c) (show 1 ≤ (e' :: todo).length by simp)
      unfold sizeofAte at hpos
      unfold addrOf
      omega
    obtain ⟨-, hvalid, b, hprev, htail⟩ := htrail.suffix.head
    obtain rfl := htail.head.1
    refine .bind (.reads hprev) ?_
    dsimp only
    rw [if_pos hvalid]
    refine hret₁.bind ?_
    rwa [if_neg hne]

end

end Copied

end ZephyrRtos.Nvs
