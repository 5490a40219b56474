import ZephyrRtos.Nvs.Collect

namespace ZephyrRtos.Nvs

open List Lib Sys LogStore

variable {c : Config} {f : Flash} {s : Fs} {w v p o d : ℕ} {es last : List Entry}
  {hist : List (List Entry)} {e : Entry} {pend : Option GcWriteEntry} {pe : GcWriteEntry}
  {V : (ℕ → List UInt8) → Prop} {Q K : Prop} {val : ℕ → List UInt8} {G : FlashOp → Prop}

theorem Idle.next_erased (h : Idle c f w es hist p d o) : Erased c f (next c w) 0 c.sectorSize := by
  have hspace := h.space
  rw [← back_last h.lt]
  exact h.ring.erased _ (by omega) (by omega)

theorem Idle.erase (h : Idle c f w es hist p d o) :
    Idle c (f.fill (base c (next c w)) c.sectorSize (erasedCell c)) w es hist p d o := by
  have heq : f.fill (base c (next c w)) c.sectorSize (erasedCell c) = f := by
    funext a
    by_cases ha : base c (next c w) ≤ a ∧ a < base c (next c w) + c.sectorSize
    · obtain ⟨k, rfl⟩ := Nat.exists_eq_add_of_le ha.1
      rw [Cells.fill_of_mem ha.1 ha.2, h.next_erased k (Nat.zero_le _) (by omega)]
    · exact Cells.sameOff_fill a (by omega)
  rwa [heq]

theorem Idle.gc (pend : Option GcWriteEntry) (hc : c.Good) (h : Idle c s.flash w [] hist 0 0 (top c))
    (hate : s.ateWra = addrOf w (top c)) (hdata : s.dataWra = addrOf w 0)
    (hR : Content Q hist val) (hV : V val)
    (hpend : ∀ pe, pend = some pe →
      alSize c (payload c pe.data).length + 4 * ateSize c ≤ c.sectorSize) :
    ∃ t, (gc c pend).Returns s (OpOk c V Q) false t ∧
      Collected c s t w [mark 0] hist 0 0 (top c - ateSize c) val Q ∧
      Settled c pend [mark 0] hist := by
  have hlt := h.lt
  have hfour := hc.four
  have hsize := hc.size_le
  have hpos := sizeofAte_le hc
  have htop : top c + 2 * ateSize c = c.sectorSize := by
    unfold top
    omega
  have hpos' := hpos
  unfold sizeofAte at hpos'
  obtain ⟨hadv, hgcAddr⟩ := gcAddr_eq hc hlt hate (by omega)
  have hrd : flashAteRd c s.flash (addrOf (next c w) (c.sectorSize - ateSize c)) =
      .ok (Ate.ofBytes (replicate sizeofAte c.eraseValue)) := by
    rw [ateRd_addrOf hc (next_lt hlt) s.flash (by omega),
      h.next_erased.bytes (Nat.zero_le _) (by omega)]
  have hfits := mark_fits hc (Nat.dvd_zero _) (show 0 + ateSize c ≤ top c by omega)
  have hidle := h.put_ate hc (Nat.zero_le _) (Nat.zero_le _) hfits
    mark_fin.le fun hlast => by omega (by rw [mark_len]; exact payload_nil.symm)
  rw [mark_fin] at hidle
  have hR' : Content Q ([mark 0] :: hist) val := hR.nil.mark
  have hop : OpOk c V Q _ := h.opened.front.ate_ok hc (Nat.zero_le _) ((mark 0).ate c)
    (h.shows hR.nil) hV (hidle.shows hR') hV
  have hidle' := hidle.erase
  refine ⟨{ s with
    flash := (putAte c s.flash w (top c) ((mark 0).ate c)).fill (base c (next c w)) c.sectorSize
      (erasedCell c)
    ateWra := addrOf w (top c - ateSize c) }, ?_,
    ⟨⟨hidle', rfl, hdata, cons_ne_nil _ _⟩, rfl, hR', (alSize_zero hc).symm, Nat.zero_le _⟩, ?_, ?_⟩
  · refine .bind .get ?_
    dsimp only
    rw [hadv, hgcAddr]
    refine .bind (.reads hrd) ?_
    rw [if_pos ateCmpConst_erased]
    refine .bind .pure (.bind .get ?_)
    rw [if_pos (by rw [hate, hdata]; unfold addrOf; omega)]
    refine (addGcDoneAte_returns hc hlt hate hdata (Nat.two_pow_pos 16) (by omega) (by omega)
      hop).bind (.bind (erase_returns hc (next_lt hlt) (Nat.two_pow_pos 16)
        ?_) .pure)
    refine ⟨trivial, ⟨val, hV, hidle.shows hR'⟩, ⟨val, hV, hidle'.shows hR'⟩,
      .inl (.inr (.inl fun a h1 h2 => ?_))⟩
    obtain ⟨k, rfl⟩ := Nat.exists_eq_add_of_le h1
    exact hidle.next_erased k (Nat.zero_le _) (by omega)
  · exact fun e he => .inl (mem_singleton.1 he ▸ ⟨rfl, rfl⟩)
  · intro pe hpe htight
    have hkept : kept c pend [] [mark 0] = [] := rfl
    have htotal : total c [] = 0 := rfl
    have hlen := hpend pe hpe
    obtain ⟨-, hlt⟩ := htight
    rw [hkept, htotal, length_nil] at hlt
    simp only [zero_add] at hlt
    omega

theorem returns_of_ignored {m : Prog Unit} (h : m.Returns s G () t) :
    Logged.Returns (fun fs => ⟨.ok (), (m fs).state, (m fs).log⟩ : Prog Unit) s G () t := by
  obtain ⟨l, hl, hall⟩ := h
  refine ⟨l, ?_, hall⟩
  show Outcome.mk _ (m s).state (m s).log = _
  rw [hl]

theorem Mounted.close (hc : c.Good) (h : Mounted c s w es hist p d o)
    (hR : Content Q (es :: hist) val) (hV : V val) :
    ∃ t, (sectorClose c).Returns s (OpOk c V Q) () t ∧ t.ateWra = addrOf (next c w) (top c) ∧
      t.dataWra = addrOf (next c w) 0 ∧ t.ready = s.ready ∧
      (Idle c t.flash (next c w) [] (es :: hist) 0 0 (top c) ∨
        Collecting c t.flash (next c w) [] (es :: hist) 0 0 (top c)) := by
  have hlt := h.idle.lt
  have hspace := h.idle.space
  obtain ⟨-, hpos, -, hsize, hend⟩ := hc.sizes
  have hslot := h.idle.opened.front.slots.offset
  obtain ⟨hring, herased⟩ := h.idle.opened.close hc hlt h.ne_nil h.idle.ring (by omega)
  have hopened := Open.nil hc herased
  set f := putAte c s.flash w (c.sectorSize - ateSize c) (closeAte c o)
  have hout : Idle c f (next c w) [] (es :: hist) 0 0 (top c) ∨
      Collecting c f (next c w) [] (es :: hist) 0 0 (top c) := by
    obtain hle | hfull := lt_or_ge (hist.length + 2) c.sectorCount
    · exact .inl ⟨next_lt hlt, hopened, hring, hle, nofun⟩
    · exact .inr ⟨next_lt hlt, hopened.front, hring, by rw [length_cons]; omega, nofun⟩
  have hshow : Shows c Q f val := by
    obtain hidle | hcoll := hout
    · exact hidle.shows hR.nil
    · exact hcoll.shows hR
  have hlen : (padded c (closeAte c o).bytes).length = ateSize c := length_padded hc _
  have hop : OpOk c V Q (ateOp c s.flash w (c.sectorSize - ateSize c) (closeAte c o)) := by
    refine ⟨⟨Nat.le_add_right .., ?_, fun a h1 h2 => ?_⟩, ⟨val, hV, h.idle.shows hR⟩,
      ⟨val, hV, hshow⟩, .inl trivial⟩
    · dsimp only
      omega
    · dsimp only at h1 h2 ⊢
      obtain ⟨k, rfl⟩ := Nat.exists_eq_add_of_le (show base c w ≤ a by omega)
      rw [h.idle.opened.front.notClosed k (by omega) (by omega)]
      rfl
  have hoffs : addrOffs (s.ateWra + ateSize c) = o + ateSize c := by
    rw [h.ateWra, addrOf_add, addrOffs_addrOf (by omega)]
  have haddr : addrSect s.ateWra + (c.sectorSize - ateSize c) =
      addrOf w (c.sectorSize - ateSize c) := by
    rw [h.ateWra, addrSect_addrOf (by omega), addrOf_add, zero_add]
  have hadv : sectorAdvance c (addrOf w (c.sectorSize - ateSize c - ateSize c)) =
      addrOf (next c w) (top c) := by
    rw [advance_addrOf hc.count_lt hlt (by omega)]
    congr 1
    omega
  have hwrt := ateWrt_returns (s := { s with ateWra := addrOf w (c.sectorSize - ateSize c) })
    (closeAte c o) hc hlt rfl (by omega) (by omega) hop
  refine ⟨{ s with
    flash := f
    ateWra := addrOf (next c w) (top c)
    dataWra := addrOf (next c w) 0 }, ?_, rfl, rfl, rfl, hout⟩
  refine .bind .get ?_
  rw [hoffs]
  refine .bind .modify ?_
  rw [haddr]
  refine .bind (returns_of_ignored hwrt) ?_
  have hmod := Logged.Returns.modify (ε := Errno) (G := OpOk c V Q) (s := { s with
    flash := f
    ateWra := addrOf w (c.sectorSize - ateSize c - ateSize c) }) (g := fun fs =>
      { fs with
        ateWra := sectorAdvance c fs.ateWra
        dataWra := addrSect (sectorAdvance c fs.ateWra) })
  rwa [hadv, addrSect_addrOf (by omega)] at hmod

/-- Between two calls, with the data that is read. Each sector has an entry that marks the end of a
collection, unless `Q`, and after the data of the newest entry nothing was written, unless `K`. -/
structure Stable (c : Config) (s : Fs) (w : ℕ) (es : List Entry) (hist : List (List Entry))
    (p d o : ℕ) (val : ℕ → List UInt8) (Q K : Prop) : Prop where
  mounted : Mounted c s w es hist p d o
  content : Content Q (es :: hist) val
  clean : d = alSize c p ∨ K

structure Request (c : Config) (V : (ℕ → List UInt8) → Prop) (val : ℕ → List UInt8)
    (pe : GcWriteEntry) : Prop where
  ok : pe.Ok c
  size : alSize c (payload c pe.data).length + 4 * ateSize c ≤ c.sectorSize
  new : V (Function.update val pe.id pe.data)

/-- When the new entry is written with the copies of a sector, there is space to mark the end, unless
`Q`. -/
def Calm (c : Config) (pe : GcWriteEntry) (R : List (List Entry)) (Q : Prop) : Prop :=
  ∀ A x B, R = A ++ x :: B → Tight c pe.data (kept c (some pe) A.flatten x) → Q

theorem Collected.not_stray (hc : c.Good) (h : Collected c s t w es hist p d o val Q) :
    stray c t = false :=
  h.mounted.idle.opened.front.not_stray hc h.mounted.idle.lt h.mounted.ateWra h.le

theorem Stable.round (hc : c.Good) (h : Stable c s w es hist p d o val Q K) (hV : V val)
    (hpe : Request c V val pe) (hcalm : Calm c pe (es :: hist) Q) :
    ∃ b t es' hist' p' d' o' val', ((do
        sectorClose c
        gc c (some pe)) : Prog Bool).Returns s (OpOk c V Q) b t ∧ t.ready = s.ready ∧
      Stable c t (next c w) es' hist' p' d' o' val' Q K ∧ stray c t = false ∧
      (b = false ∧ val' = val ∧ Calm c pe (es' :: hist') Q ∨
        b = true ∧ val' = Function.update val pe.id pe.data) := by
  obtain ⟨t₁, hclose, hate, hdata, hready, hout⟩ := h.mounted.close hc h.content hV
  -- which sectors are left, and what is known of them
  have hdone : ∀ {es' hist' last}, es :: hist = hist' ++ last → Settled c (some pe) es' hist' →
      Calm c pe (es' :: hist') Q := by
    intro es' hist' last hR hsettled A x B hAx htight
    cases A with
    | nil =>
      obtain ⟨rfl, -⟩ := cons.inj hAx
      exact absurd htight (hsettled.loose pe rfl)
    | cons y A =>
      obtain ⟨rfl, rfl⟩ := cons.inj hAx
      refine hcalm A x (B ++ last) (by rw [hR]; simp) ?_
      have hkept : kept c (some pe) (es' :: A).flatten x = kept c (some pe) A.flatten x := by
        rw [kept, kept, live_congr]
        intro e he hval
        have hmem : e ∈ (A ++ x :: B).flatten := by simp [he]
        refine ⟨?_, ?_⟩
        · rintro ⟨y, hy, hid⟩
          obtain hy | hy := mem_append.1 hy
          · obtain hmark | hfresh := hsettled.fresh y hy
            · refine absurd (h.content.marks e ?_ (hid ▸ hmark.1)) hval
              rw [hR, flatten_append]
              exact mem_append_left _ hmem
            · exact absurd hid.symm (hfresh e hmem)
          · exact ⟨y, hy, hid⟩
        · rintro ⟨y, hy, hid⟩
          exact ⟨y, by rw [flatten_cons]; exact mem_append_right _ hy, hid⟩
      rwa [hkept] at htight
  obtain hidle | hcoll := hout
  · obtain ⟨t, hgc, hcollected, hsettled⟩ := hidle.gc (some pe) hc hate hdata h.content hV
      (by rintro _ ⟨⟩; exact hpe.size)
    have hR : es :: hist = (es :: hist) ++ [] := (append_nil _).symm
    exact ⟨false, t, _, _, _, _, _, val, hclose.bind hgc, hcollected.ready.trans hready,
      ⟨hcollected.mounted, hcollected.content, .inl hcollected.clean⟩, hcollected.not_stray hc,
      .inl ⟨rfl, rfl, hdone hR hsettled⟩⟩
  obtain hnil | ⟨hist', last, hR⟩ := eq_nil_or_concat' (es :: hist)
  · cases hnil
  have hcont := h.content
  rw [hR] at hcoll hcont
  obtain ⟨b, t, es', p', d', o', val', hgc, hcollected, hb⟩ := hcoll.gc (some pe) hc hate hdata
    hcont hV (by rintro _ ⟨⟩; exact ⟨hpe.ok, hpe.new⟩)
    (by rintro _ ⟨⟩; exact hcalm hist' last [] hR)
  refine ⟨b, t, es', hist', p', d', o', val', hclose.bind hgc, hcollected.ready.trans hready,
    ⟨hcollected.mounted, hcollected.content, .inl hcollected.clean⟩, hcollected.not_stray hc, ?_⟩
  obtain ⟨rfl, rfl, hsettled⟩ | ⟨-, ⟨⟩, rfl, rfl⟩ := hb
  · exact .inl ⟨rfl, rfl, hdone hR hsettled⟩
  · exact .inr ⟨rfl, rfl⟩

end ZephyrRtos.Nvs
