import ZephyrRtos.Pbuf.Spsc

namespace ZephyrRtos.SpscPbuf

open List Function Lib

variable {m m' : Memory} {L rd rd' wr n k : ℕ} {wrap : Option ℕ} {fs bs : List Packet}
  {s s' : Pbuf} {es es' : List Event}

def Room (L rd wr n : ℕ) : Prop :=
  if wr < rd then wr + extent n < rd else wr + extent n ≤ L ∧ (rd = 0 → wr + extent n < L)

def ProducerOk (L : ℕ) (m : Memory) (rd wr : ℕ) (wrap : Option ℕ) : Producer → Prop
  | .idle => True
  | .padding len rd' => (len ≤ maxLen ∧ wrap = none) ∧ 0 < rd' ∧ 4 ∣ rd' ∧ rd' ≤ rd
  | .wrapping len rd' =>
    ((len ≤ maxLen ∧ wrap = none) ∧ 0 < rd' ∧ 4 ∣ rd' ∧ rd' ≤ rd) ∧ m wr = paddingMark
  | .allocated n => n ≤ maxLen ∧ (n = 0 ∨ Room L rd wr n)
  | .committing n => Room L rd wr n ∧ Header m wr n

def ConsumerOk (L rd : ℕ) (wrap : Option ℕ) (fs bs : List Packet) : Consumer → Prop
  | .idle => True
  | .claiming W => fs ≠ [] ∨ wrap ≠ none ∧ (W = 0 ∨ bs ≠ [])
  | .padding W | .wrapping W => fs = [] ∧ wrap ≠ none ∧ (W = 0 ∨ bs ≠ [])
  | .atStart => fs ≠ []
  | .claimed n => ∃ p fs', fs = p :: fs' ∧ n = p.length
  | .checking p r => fs = [p] ∧
      (r = rd + extent p.length ∧ r < L ∨ r = 0 ∧ rd + extent p.length = L)
  | .freeing p r => (∃ fs', fs = p :: fs' ∧ r = rd + extent p.length ∧ r < L) ∨
      fs = [p] ∧ wrap ≠ none ∧ r = 0

/-- What holds of the buffer with the packets `fs` and then `bs` in it. -/
structure Ok (L : ℕ) (s : Pbuf) (wrap : Option ℕ) (fs bs : List Packet) : Prop where
  len : s.len = L
  rd_lt : s.rdIdx < L
  wr_lt : s.wrIdx < L
  rd_dvd : 4 ∣ s.rdIdx
  wr_dvd : 4 ∣ s.wrIdx
  layout : Layout L s.data s.rdIdx s.wrIdx wrap fs bs
  producer : ProducerOk L s.data s.rdIdx s.wrIdx wrap s.producer
  consumer : ConsumerOk L s.rdIdx wrap fs bs s.consumer

section Producer

theorem allocLen_le (len : ℕ) (f : ℤ) : allocLen len f ≤ len := min_le_left ..

theorem allocLen_room (len : ℕ) (hk : 4 ∣ k) :
    allocLen len k = 0 ∨ extent (allocLen len k) ≤ k := by
  have hle : allocLen len k ≤ (max ((k : ℤ) - lenSz) 0).toNat := min_le_right ..
  obtain h0 | h0 := eq_zero_or_pos (allocLen len k)
  · exact .inl h0
  · refine .inr (extent_le hk ?_)
    rw [lenSz] at hle
    omega

theorem producerOk_allocated (len : ℕ) (hlen : len ≤ maxLen) (hk : 4 ∣ k)
    (hroom : ∀ n, extent n ≤ k → Room L rd wr n) :
    ProducerOk L m rd wr wrap (.allocated (allocLen len k)) :=
  ⟨(allocLen_le ..).trans hlen, (allocLen_room len hk).imp_right (hroom _)⟩

theorem Ok.withProducer (h : Ok L s wrap fs bs) {p : Producer}
    (hp : ProducerOk L s.data s.rdIdx s.wrIdx wrap p) :
    Ok L { s with producer := p } wrap fs bs :=
  ⟨h.len, h.rd_lt, h.wr_lt, h.rd_dvd, h.wr_dvd, h.layout, hp, h.consumer⟩

theorem int32_sub {a b : ℕ} (hb : b ≤ a) (ha : a ≤ 2 ^ 16) : int32 (a - b) = (a - b : ℕ) := by
  rw [int32_eq (by omega) (by rw [int32Max]; omega)]
  omega

theorem Ok.alloc (h : Ok L s wrap fs bs) (hL : 4 ∣ L) (hle : L ≤ 2 ^ 16) (len : ℕ) :
    Ok L (alloc s len) wrap fs bs := by
  obtain ⟨rfl, hrd, hwr, hrd4, hwr4, hlayout, -⟩ := id h
  rw [SpscPbuf.alloc]
  split
  · exact h
  next hbad =>
  have hmax : len ≤ maxLen := by omega
  split
  next hlt =>
    dsimp only
    generalize (if len = maxLen then lenSz + 1 else len + lenSz) = space
    have hfree : int32 (int32 ((s.len : ℤ) - s.wrIdx) - (if 0 < s.rdIdx then 0 else lenSz : ℕ)) =
        (s.len - s.wrIdx - (if 0 < s.rdIdx then 0 else lenSz) : ℕ) := by
      rw [int32_sub hwr.le hle, int32_sub (by rw [lenSz]; split <;> omega) (by omega)]
    split
    · refine h.withProducer ?_
      rw [hfree]
      refine producerOk_allocated len hmax ?_ fun n hn => ?_
      · rw [lenSz]
        split <;> omega
      rw [Room, if_neg (by omega)]
      rw [lenSz] at hn
      constructor
      · omega
      · intro h0
        rw [if_neg (by omega)] at hn
        omega
    next hpad =>
      refine h.withProducer
        ⟨⟨hmax, hlayout.eq_none hlt⟩, ?_, hrd4, le_rfl⟩
      omega
  next hlt =>
    refine h.withProducer ?_
    have hfree : int32 ((s.rdIdx : ℤ) - s.wrIdx - lenSz) = (s.rdIdx - s.wrIdx - lenSz : ℕ) := by
      rw [← Nat.cast_sub (by omega), int32_sub (by rw [lenSz]; omega) (by omega)]
    rw [hfree]
    refine producerOk_allocated len hmax ?_ fun n hn => ?_
    · rw [lenSz]
      omega
    · rw [Room, if_pos (by omega)]
      rw [lenSz] at hn
      omega

theorem agreeOff_update (m : Memory) (b : UInt8) (hlo : lo ≤ a) (hhi : a < hi) :
    Memory.AgreeOff m (update m a b) lo hi :=
  fun c hc => update_of_ne (by omega) _ _

theorem Ok.write (h : Ok L s wrap fs bs) (hroom : Room L s.rdIdx s.wrIdx n)
    (hm : Memory.AgreeOff s.data m s.wrIdx (s.wrIdx + extent n))
    (hp : ProducerOk L m s.rdIdx s.wrIdx wrap p) :
    Ok L { s with data := m, producer := p } wrap fs bs := by
  refine ⟨h.len, h.rd_lt, h.wr_lt, h.rd_dvd, h.wr_dvd, h.layout.congr hm fun hlt => ?_, hp, h.consumer⟩
  rw [Room, if_pos hlt] at hroom
  exact hroom.le

theorem Ok.fill (h : Ok L s wrap fs bs) (hp : s.producer = .allocated n) (hi : i < n) (byte : UInt8) :
    Ok L { s with data := update s.data (s.wrIdx + lenSz + i) byte } wrap fs bs := by
  have hok := h.producer
  rw [hp] at hok
  have hroom := hok.2.resolve_left (by omega)
  have hext := lenSz_le_extent n
  have hm : Memory.AgreeOff s.data (update s.data (s.wrIdx + lenSz + i) byte) s.wrIdx
      (s.wrIdx + extent n) := agreeOff_update _ _ (by omega) (by rw [lenSz]; omega)
  have hok' := h.write hroom hm (p := .allocated n) hok
  rwa [← hp] at hok'

theorem Room.mono (h : Room L rd wr n) (hk : extent k ≤ extent n) : Room L rd wr k := by
  rw [Room] at h ⊢
  split at h
  · rw [if_pos ‹_›]
    omega
  · rw [if_neg ‹_›]
    exact ⟨by omega, fun h0 => by have := h.2 h0; omega⟩

theorem extent_mono (h : k ≤ n) : extent k ≤ extent n := by
  simp only [extent, roundUp]
  omega

theorem Ok.commit (h : Ok L s wrap fs bs) (hp : s.producer = .allocated n) (hk : k ≤ n)
    (h0 : 0 < k) (hmax : k ≠ maxLen) :
    Ok L { s with data := putBe16 s.data s.wrIdx k, producer := .committing k } wrap fs bs := by
  have hok := h.producer
  rw [hp] at hok
  obtain ⟨hn, hroom⟩ := hok
  have hroom := (hroom.resolve_left (by omega)).mono (extent_mono hk)
  have hext := lenSz_le_extent k
  refine h.write hroom ?_ ⟨hroom, header_putBe16 h0 (by omega)⟩
  intro c hc
  rw [putBe16, update_of_ne (by omega), update_of_ne (by omega)]

theorem Ok.mark (h : Ok L s wrap fs bs) {len : ℕ} (hp : s.producer = .padding len rd) :
    Ok L { s with
      data := update s.data s.wrIdx paddingMark
      producer := .wrapping len rd } wrap fs bs := by
  have hok := h.producer
  rw [hp] at hok
  refine ⟨h.len, h.rd_lt, h.wr_lt, h.rd_dvd, h.wr_dvd, ?_, ⟨hok, update_self ..⟩, h.consumer⟩
  exact h.layout.congr (agreeOff_update _ _ le_rfl (Nat.lt_succ_self _)) (by omega)

theorem ConsumerOk.restart (h : ConsumerOk L rd none fs [] c) :
    ConsumerOk L rd (some e) fs [] c := by
  cases c with
  | claiming W => exact .inl (h.resolve_right fun h => h.1 rfl)
  | padding W => exact absurd rfl h.2.1
  | wrapping W => exact absurd rfl h.2.1
  | freeing p r => exact .inl (h.resolve_right fun h => h.2.1 rfl)
  | _ => exact h

theorem Ok.restart (h : Ok L s wrap fs bs) (hle : L ≤ 2 ^ 16) {len : ℕ}
    (hp : s.producer = .wrapping len rd) :
    Ok L { s with wrIdx := 0, producer := .allocated (allocLen len (int32 (rd - lenSz))) }
      (some s.wrIdx) fs [] ∧ bs = [] := by
  obtain ⟨rfl, hrd, hwr, hrd4, -, hlayout, hprod, hcons⟩ := h
  rw [hp] at hprod
  obtain ⟨⟨⟨hlen, rfl⟩, h0, h4, hrd'⟩, hmark⟩ := hprod
  cases hlayout with
  | straight hseg =>
  refine ⟨⟨rfl, hrd, Nat.zero_lt_of_lt hwr, hrd4, dvd_zero 4, ?_, ?_, hcons.restart⟩, rfl⟩
  · exact .wrapped hseg (.inr ⟨hwr, hmark⟩) .nil (h0.trans_le hrd')
  have hfree : int32 ((rd : ℤ) - lenSz) = (rd - lenSz : ℕ) :=
    int32_sub (by rw [lenSz]; omega) (by omega)
  rw [hfree]
  refine producerOk_allocated len hlen (by rw [lenSz]; omega) fun n hn => ?_
  rw [lenSz] at hn
  rw [Room, if_pos (h0.trans_le hrd')]
  show 0 + extent n < s.rdIdx
  omega

theorem ConsumerOk.snoc_back (h : ConsumerOk L rd (some e) fs bs c) :
    ConsumerOk L rd (some e) fs (bs ++ [p]) c := by
  cases c with
  | claiming W => exact h.imp_right fun h => ⟨h.1, .inr (by simp)⟩
  | padding W => exact ⟨h.1, h.2.1, .inr (by simp)⟩
  | wrapping W => exact ⟨h.1, h.2.1, .inr (by simp)⟩
  | _ => exact h

theorem ConsumerOk.snoc_front (h : ConsumerOk L rd none fs [] c) (hc : ∀ p r, c ≠ .checking p r)
    (wrap : Option ℕ) :
    ConsumerOk L rd wrap (fs ++ [p]) [] c := by
  cases c with
  | idle => exact h
  | claiming W => exact .inl (by simp)
  | padding W => exact absurd rfl h.2.1
  | wrapping W => exact absurd rfl h.2.1
  | atStart => exact append_ne_nil_of_left_ne_nil h _
  | claimed n =>
    obtain ⟨q, fs', rfl, hn⟩ := h
    exact ⟨q, fs' ++ [p], rfl, hn⟩
  | checking q r => exact absurd rfl (hc q r)
  | freeing q r =>
    obtain ⟨fs', rfl, hr⟩ := h.resolve_right fun h => h.2.1 rfl
    exact .inl ⟨fs' ++ [p], rfl, hr⟩

theorem Ok.not_checking (h : Ok L s none fs bs) (hp : s.producer = .committing n)
    (hok : misleads s = false) (p : Packet) (r : ℕ) : s.consumer ≠ .checking p r := by
  intro hc
  have hcons := h.consumer
  rw [hc] at hcons
  obtain ⟨rfl, hr⟩ := hcons
  have hend : s.rdIdx + extent p.length = s.wrIdx := by
    cases h.layout with
    | straight hseg => exact hseg.tail.eq_of_nil
  have hwr := h.wr_lt
  have hext := lenSz_le_extent p.length
  simp only [misleads, hp, hc, decide_eq_false_iff_not] at hok
  omega

theorem Ok.publish (h : Ok L s wrap fs bs) (hp : s.producer = .committing n)
    (hok : misleads s = false) :
    ∃ wrap' fs' bs', Ok L { s with wrIdx := nextWr s n, producer := .idle } wrap' fs' bs' ∧
      fs' ++ bs' = fs ++ bs ++ [s.data.list (s.wrIdx + lenSz) n] := by
  have hnot := fun hw : wrap = none => (hw ▸ h).not_checking hp hok
  obtain ⟨rfl, hrd, hwr, hrd4, hwr4, hlayout, hprod, hcons⟩ := h
  rw [hp] at hprod
  obtain ⟨hroom, hhead⟩ := hprod
  have hdvd : 4 ∣ s.wrIdx + extent n := Nat.dvd_add hwr4 (extent_dvd n)
  rw [nextWr, roundUp_add hwr4]
  cases hlayout with
  | straight hseg =>
    have hle := hseg.le
    rw [Room, if_neg (by omega)] at hroom
    have hsnoc := hseg.snoc hhead
    split
    next hend =>
      rw [hend] at hsnoc
      refine ⟨some s.len, fs ++ [s.data.list (s.wrIdx + lenSz) n], [], ⟨rfl, hrd,
        Nat.zero_lt_of_lt hwr, hrd4, dvd_zero 4, ?_, trivial, hcons.snoc_front (hnot rfl) _⟩, by simp⟩
      refine .wrapped hsnoc (.inl rfl) .nil ?_
      show 0 < s.rdIdx
      omega
    next hend =>
      refine ⟨none, _, [], ⟨rfl, hrd, ?_, hrd4, hdvd, .straight hsnoc, trivial,
        hcons.snoc_front (hnot rfl) _⟩, by simp⟩
      show s.wrIdx + extent n < s.len
      omega
  | wrapped hseg he hseg' hlt =>
    rw [Room, if_pos hlt] at hroom
    rw [if_neg (by omega)]
    refine ⟨_, _, _, ⟨rfl, hrd, ?_, hrd4, hdvd, .wrapped hseg he (hseg'.snoc hhead) hroom, trivial,
      hcons.snoc_back⟩, (append_assoc ..).symm⟩
    show s.wrIdx + extent n < s.len
    omega

end Producer

section Consumer

theorem Room.forward (h : Room L rd wr n) (hle : rd ≤ rd') (hside : wr < rd' → wr < rd) :
    Room L rd' wr n := by
  rw [Room] at h ⊢
  split
  next hlt =>
    rw [if_pos (hside hlt)] at h
    omega
  next hlt =>
    rw [if_neg (by omega)] at h
    exact ⟨h.1, fun h0 => h.2 (by omega)⟩

theorem Room.restart (h : Room L rd wr n) (hlt : wr < rd) (hrd : rd < L) : Room L 0 wr n := by
  rw [Room, if_pos hlt] at h
  constructor
  · omega
  · omega

theorem ProducerOk.forward (h : ProducerOk L m rd wr wrap p) (hle : rd ≤ rd')
    (hside : wr < rd' → wr < rd) : ProducerOk L m rd' wr wrap p := by
  cases p with
  | idle => trivial
  | padding len r => exact ⟨h.1, h.2.1, h.2.2.1, h.2.2.2.trans hle⟩
  | wrapping len r => exact ⟨⟨h.1.1, h.1.2.1, h.1.2.2.1, h.1.2.2.2.trans hle⟩, h.2⟩
  | allocated n => exact ⟨h.1, h.2.imp_right fun h => h.forward hle hside⟩
  | committing n => exact ⟨h.1.forward hle hside, h.2⟩

theorem ProducerOk.restart (h : ProducerOk L m rd wr (some e) p) (hlt : wr < rd) (hrd : rd < L) :
    ProducerOk L m 0 wr none p := by
  cases p with
  | idle => trivial
  | padding len r => exact absurd h.1.2 nofun
  | wrapping len r => exact absurd h.1.1.2 nofun
  | allocated n => exact ⟨h.1, h.2.imp_right fun h => h.restart hlt hrd⟩
  | committing n => exact ⟨h.1.restart hlt hrd, h.2⟩

section

variable (h : Ok L s wrap fs bs)
include h

theorem Ok.withConsumer (hc : ConsumerOk L s.rdIdx wrap fs bs c) :
    Ok L { s with consumer := c } wrap fs bs :=
  ⟨h.len, h.rd_lt, h.wr_lt, h.rd_dvd, h.wr_dvd, h.layout, h.producer, hc⟩

theorem Ok.toStart (hw : wrap ≠ none) (hc : ConsumerOk L 0 none bs [] c) :
    Ok L { s with rdIdx := 0, consumer := c } none bs [] := by
  obtain ⟨hlen, hrd, hwr, -, hwr4, hlayout, hprod, -⟩ := h
  cases wrap with
  | none => exact absurd rfl hw
  | some e =>
    exact ⟨hlen, Nat.zero_lt_of_lt hrd, hwr, dvd_zero 4, hwr4, hlayout.restart,
      hprod.restart hlayout.lt_of_some hrd, hc⟩

theorem Ok.claim :
    Ok L (if s.rdIdx = s.wrIdx then s else { s with consumer := .claiming s.wrIdx }) wrap fs bs := by
  split
  · exact h
  next hne =>
    refine h.withConsumer ?_
    cases h.layout with
    | straight hseg => exact .inl (hseg.ne_nil hne)
    | wrapped hseg he hseg' hlt =>
      refine .inr ⟨Option.some_ne_none _, ?_⟩
      by_cases h0 : s.wrIdx = 0
      · exact .inl h0
      · exact .inr (hseg'.ne_nil (.symm h0))

end

theorem Ok.head (h : Ok L s wrap (p :: fs) bs) :
    s.data s.rdIdx ≠ paddingMark ∧ getBe16 s.data s.rdIdx = p.length :=
  ⟨h.layout.head.1.ne_paddingMark, h.layout.head.1.be16⟩

section

variable (h : Ok L s wrap fs bs)
include h

theorem Ok.claiming (hc : s.consumer = .claiming W) :
    Ok L { s with
      consumer := if s.data s.rdIdx = paddingMark then .padding W
        else .claimed (getBe16 s.data s.rdIdx) } wrap fs bs := by
  have hcons := h.consumer
  rw [hc] at hcons
  refine h.withConsumer ?_
  cases fs with
  | cons p fs =>
    rw [if_neg h.head.1, h.head.2]
    exact ⟨p, fs, rfl, rfl⟩
  | nil =>
    obtain ⟨hw, hW⟩ := hcons.resolve_left fun h => h rfl
    cases hlayout : h.layout with
    | straight _ => exact absurd rfl hw
    | wrapped hseg he _ _ =>
      have hrd := h.rd_lt
      obtain rfl := hseg.eq_of_nil
      rw [if_pos (he.resolve_left (by omega)).2]
      exact ⟨rfl, hw, hW⟩

theorem Ok.padding (hc : s.consumer = .padding W) :
    s.rdIdx ≠ s.wrIdx ∧ Ok L { s with consumer := .wrapping W } wrap fs bs := by
  have hcons := h.consumer
  rw [hc] at hcons
  refine ⟨?_, h.withConsumer hcons⟩
  cases h.layout with
  | straight _ => exact absurd rfl hcons.2.1
  | wrapped _ _ _ hlt => exact hlt.ne'

theorem Ok.wrapping (hc : s.consumer = .wrapping W) :
    fs = [] ∧ Ok L { s with rdIdx := 0, consumer := if W = 0 then .idle else .atStart } none bs [] := by
  have hcons := h.consumer
  rw [hc] at hcons
  obtain ⟨hfs, hw, hW⟩ := hcons
  refine ⟨hfs, h.toStart hw ?_⟩
  split
  · trivial
  · exact hW.resolve_left ‹_›

theorem Ok.atStart (hc : s.consumer = .atStart) :
    Ok L { s with consumer := .claimed (getBe16 s.data s.rdIdx) } wrap fs bs := by
  have hcons := h.consumer
  rw [hc] at hcons
  refine h.withConsumer ?_
  cases fs with
  | nil => exact absurd rfl hcons
  | cons p fs => exact ⟨p, fs, rfl, h.head.2⟩

end

section

variable (h : Ok L s wrap (p :: fs) bs)
include h

theorem Ok.nextRd_eq (hle : L ≤ 2 ^ 16) :
    nextRd s p.length = s.rdIdx + extent p.length ∨
      nextRd s p.length = 0 ∧ s.rdIdx + extent p.length = L ∧ L = 2 ^ 16 := by
  have hend := h.layout.head_le h.wr_lt
  have hext := lenSz_le_extent p.length
  have hround := roundUp_add (n := p.length) h.rd_dvd
  rw [nextRd, add_assoc]
  obtain hlt | heq := (hend.trans hle).lt_or_eq
  · left
    have hsum : s.rdIdx + (p.length + lenSz) < 2 ^ 16 := by
      rw [lenSz]
      omega
    rw [Nat.mod_eq_of_lt hsum, hround, Nat.mod_eq_of_lt hlt]
  · rw [roundUp] at hround ⊢
    omega

theorem Ok.eq_singleton (hm : s.data (s.rdIdx + extent p.length) = paddingMark) : fs = [] := by
  cases fs with
  | nil => rfl
  | cons q fs => exact absurd hm h.layout.tail.head.1.ne_paddingMark

theorem Ok.eq_singleton_of_end (hend : s.rdIdx + extent p.length = L) : fs = [] ∧ wrap ≠ none := by
  have hwr := h.wr_lt
  cases h.layout with
  | straight hseg =>
    have := hseg.tail.le
    omega
  | @wrapped e _ _ hseg he _ _ =>
    have htail := hseg.tail
    have hle := htail.le
    obtain rfl : e = L := by omega
    rw [hend] at htail
    exact ⟨htail.eq_nil, Option.some_ne_none _⟩

end

section

variable (h : Ok L s wrap fs bs)
include h

theorem Ok.free (hle : L ≤ 2 ^ 16) (hc : s.consumer = .claimed n) :
    Ok L { s with consumer := free s n } wrap fs bs := by
  have hcons := h.consumer
  rw [hc] at hcons
  obtain ⟨p, fs, rfl, rfl⟩ := hcons
  have hend := h.layout.head_le h.wr_lt
  refine h.withConsumer ?_
  rw [SpscPbuf.free, h.layout.head.2, h.len]
  split
  next hne =>
    obtain hnext | ⟨hnext, heq, -⟩ := h.nextRd_eq hle
    · rw [hnext] at hne ⊢
      split
      next hm =>
        rw [h.eq_singleton hm]
        exact ⟨rfl, .inl ⟨rfl, by omega⟩⟩
      · exact .inl ⟨fs, rfl, rfl, by omega⟩
    · obtain ⟨rfl, hw⟩ := h.eq_singleton_of_end heq
      rw [hnext]
      split
      · exact ⟨rfl, .inr ⟨rfl, heq⟩⟩
      · exact .inr ⟨rfl, hw, rfl⟩
  next heq =>
    obtain hnext | ⟨hnext, -, hL⟩ := h.nextRd_eq hle
    · obtain ⟨rfl, hw⟩ := h.eq_singleton_of_end (by omega)
      exact .inr ⟨rfl, hw, rfl⟩
    · omega

theorem Ok.checking (hc : s.consumer = .checking p r) :
    Ok L { s with consumer := .freeing p (if r ≠ s.wrIdx then 0 else r) } wrap fs bs := by
  have hcons := h.consumer
  rw [hc] at hcons
  obtain ⟨rfl, hr⟩ := hcons
  have hwr := h.wr_lt
  refine h.withConsumer ?_
  split
  next hne =>
    refine .inr ⟨rfl, ?_, rfl⟩
    rintro rfl
    cases h.layout with
    | straight hseg =>
      have := hseg.tail.eq_of_nil
      omega
  next heq =>
    obtain ⟨hr, hlt⟩ | ⟨rfl, hend⟩ := hr
    · exact .inl ⟨[], rfl, hr, hlt⟩
    · exact .inr ⟨rfl, (h.eq_singleton_of_end hend).2, rfl⟩

theorem Ok.freeing (hc : s.consumer = .freeing p r) :
    ∃ wrap' fs' bs', Ok L { s with rdIdx := r, consumer := .idle } wrap' fs' bs' ∧
      fs ++ bs = p :: (fs' ++ bs') := by
  have hcons := h.consumer
  rw [hc] at hcons
  obtain ⟨fs, rfl, rfl, hlt⟩ | ⟨rfl, hw, rfl⟩ := hcons
  · refine ⟨wrap, fs, bs, ?_, rfl⟩
    have htail := h.layout.tail
    refine ⟨h.len, hlt, h.wr_lt, Nat.dvd_add h.rd_dvd (extent_dvd _), h.wr_dvd, htail, ?_, trivial⟩
    refine h.producer.forward (Nat.le_add_right ..) fun hside => ?_
    cases wrap with
    | none => exact absurd htail.le_of_none hside.not_ge
    | some e => exact h.layout.lt_of_some
  · exact ⟨none, bs, [], h.toStart hw trivial, by simp⟩

end

end Consumer

def Inv (L : ℕ) (es : List Event) (s : Pbuf) : Prop :=
  ∃ wrap fs bs, Ok L s wrap fs bs ∧ packetsWritten es = packetsRead es ++ (fs ++ bs)

theorem Inv.quiet (ho : packetsWritten es = packetsRead es ++ (fs ++ bs))
    (hs : Ok L s wrap fs bs) : Inv L (es ++ []) s :=
  ⟨wrap, fs, bs, hs, by rwa [append_nil]⟩

theorem Inv.produce (hL : 4 ∣ L) (hle : L ≤ 2 ^ 16) (h : Inv L es s) (hok : misleads s = false)
    (hstep : produce s = some (s', es')) : Inv L (es ++ es') s' := by
  obtain ⟨wrap, fs, bs, hs, ho⟩ := h
  rw [SpscPbuf.produce] at hstep
  split at hstep
  next len rd hp =>
    cases hstep
    exact .quiet ho (hs.mark hp)
  next len rd hp =>
    cases hstep
    obtain ⟨hs', rfl⟩ := hs.restart hle hp
    exact .quiet ho hs'
  next len hp =>
    cases hstep
    obtain ⟨wrap', fs', bs', hs', happ⟩ := hs.publish hp hok
    refine ⟨wrap', fs', bs', hs', ?_⟩
    simp only [packetsWritten, packetsRead, flatMap_append, happ] at ho ⊢
    rw [ho]
    simp [Event.packetsWritten, Event.packetsRead]
  next => contradiction

theorem Inv.consume (h : Inv L es s) (hstep : consume s = some (s', es')) :
    Inv L (es ++ es') s' := by
  obtain ⟨wrap, fs, bs, hs, ho⟩ := h
  rw [SpscPbuf.consume] at hstep
  split at hstep
  next W hc =>
    have hs' := hs.claiming hc
    split at hstep
    next hm =>
      cases hstep
      rw [if_pos hm] at hs'
      exact .quiet ho hs'
    next hm =>
      cases hstep
      rw [if_neg hm] at hs'
      exact .quiet ho hs'
  next W hc =>
    rw [if_neg (hs.padding hc).1] at hstep
    cases hstep
    exact .quiet ho (hs.padding hc).2
  next W hc =>
    cases hstep
    obtain ⟨rfl, hs'⟩ := hs.wrapping hc
    refine .quiet ?_ hs'
    rw [ho, nil_append, append_nil]
  next hc =>
    cases hstep
    exact .quiet ho (hs.atStart hc)
  next p r hc =>
    cases hstep
    exact .quiet ho (hs.checking hc)
  next p r hc =>
    cases hstep
    obtain ⟨wrap', fs', bs', hs', happ⟩ := hs.freeing hc
    refine ⟨wrap', fs', bs', hs', ?_⟩
    simp only [packetsWritten, packetsRead, happ] at ho ⊢
    simp [ho, Event.packetsWritten, Event.packetsRead]
  next => contradiction

theorem Inv.step (hL : 4 ∣ L) (hle : L ≤ 2 ^ 16) (h : Inv L es s) (ha : Undisturbed s a)
    (hstep : step s a = some (s', es')) : Inv L (es ++ es') s' := by
  cases a with
  | produce => exact h.produce hL hle ha hstep
  | consume => exact h.consume hstep
  | alloc len =>
    obtain ⟨wrap, fs, bs, hs, ho⟩ := h
    simp only [SpscPbuf.step] at hstep
    split at hstep
    case h_3 => contradiction
    all_goals
      cases hstep
      exact .quiet ho (hs.alloc hL hle len)
  | fill i byte =>
    obtain ⟨wrap, fs, bs, hs, ho⟩ := h
    simp only [SpscPbuf.step] at hstep
    split at hstep
    case h_2 => contradiction
    next n hp =>
    split at hstep
    case isFalse => contradiction
    next hi =>
    cases hstep
    exact .quiet ho (hs.fill hp hi byte)
  | commit k =>
    obtain ⟨wrap, fs, bs, hs, ho⟩ := h
    simp only [SpscPbuf.step] at hstep
    split at hstep
    case h_2 => contradiction
    next n hp =>
    split at hstep
    case isFalse => contradiction
    next hk =>
    split at hstep
    next h0 =>
      cases hstep
      exact .quiet ho (hs.withProducer trivial)
    next h0 =>
      cases hstep
      exact .quiet ho (hs.commit hp hk (pos_of_ne_zero h0) ha)
  | claim =>
    obtain ⟨wrap, fs, bs, hs, ho⟩ := h
    simp only [SpscPbuf.step] at hstep
    split at hstep
    case h_2 => contradiction
    cases hstep
    exact .quiet ho hs.claim
  | free =>
    obtain ⟨wrap, fs, bs, hs, ho⟩ := h
    simp only [SpscPbuf.step] at hstep
    split at hstep
    case h_2 => contradiction
    next n hc =>
    cases hstep
    exact .quiet ho (hs.free hle hc)
  | release =>
    obtain ⟨wrap, fs, bs, hs, ho⟩ := h
    simp only [SpscPbuf.step] at hstep
    split at hstep
    case h_2 => contradiction
    cases hstep
    exact .quiet ho (hs.withConsumer trivial)

theorem Inv.init (hblen : Admissible pad blen) :
    Inv (getLen pad blen cache) [] (system pad blen cache data).init := by
  have hpos : 0 < getLen pad blen cache := by
    rw [Admissible, sizeofPbuf] at hblen
    rw [getLen]
    split <;> omega
  exact ⟨none, [], [], ⟨rfl, hpos, hpos, dvd_zero 4, dvd_zero 4, .straight .nil, trivial,
    trivial⟩, rfl⟩

/-- Nothing is left to read: the indices are equal, or only the marker is between them. -/
def Drained (s : Pbuf) : Prop :=
  s.rdIdx = s.wrIdx ∨ s.wrIdx = 0 ∧ s.data s.rdIdx = paddingMark

theorem Ok.drained_iff (h : Ok L s wrap fs bs) : fs ++ bs = [] ↔ Drained s := by
  have hrd := h.rd_lt
  rw [Drained]
  cases fs with
  | cons p fs =>
    have hne : s.rdIdx ≠ s.wrIdx := by
      have hext := lenSz_le_extent p.length
      cases h.layout with
      | straight hseg =>
        have := hseg.tail.le
        omega
      | wrapped _ _ _ hlt => exact hlt.ne'
    simp [hne, h.head.1]
  | nil =>
    cases h.layout with
    | straight hseg => simp [hseg.eq_of_nil]
    | wrapped hseg he hseg' hlt =>
      obtain rfl := hseg.eq_of_nil
      have hmark := (he.resolve_left (by omega)).2
      simp only [hlt.ne', hmark, false_or, and_true]
      constructor
      · rintro rfl
        exact hseg'.eq_of_nil.symm
      · intro h0
        rw [h0] at hseg'
        exact hseg'.eq_nil

/-- In a buffer of whole words with at most 2^16 bytes, the packets are read as they were written
and in order, none is lost, and the indices stay inside. -/
theorem spsc_pbuf_packets {pad blen : ℕ} {cache : Bool} {data : Memory}
    (hblen : Admissible pad blen) (hdvd : 4 ∣ getLen pad blen cache)
    (hle : getLen pad blen cache ≤ 2 ^ 16)
    (hrun : Reaches (system pad blen cache data) Undisturbed es s) :
    packetsRead es <+: packetsWritten es ∧
      (packetsRead es = packetsWritten es ↔ Drained s) ∧
      (∀ n, s.consumer = .claimed n →
        packetsRead es ++ [s.data.list (s.rdIdx + lenSz) n] <+: packetsWritten es) ∧
      s.rdIdx < getLen pad blen cache ∧ s.wrIdx < getLen pad blen cache := by
  obtain ⟨wrap, fs, bs, hs, ho⟩ := Run.invariant (I := Inv (getLen pad blen cache)) (.init hblen)
    (fun _ _ _ _ _ hi ha hstep => hi.step hdvd hle ha hstep) hrun
  refine ⟨⟨_, ho.symm⟩, ?_, fun n hc => ?_, hs.rd_lt, hs.wr_lt⟩
  · rw [ho, self_eq_append_right, hs.drained_iff]
  · have hcons := hs.consumer
    rw [hc] at hcons
    obtain ⟨p, fs, rfl, rfl⟩ := hcons
    rw [hs.layout.head.2, ho]
    exact ⟨fs ++ bs, by simp⟩

theorem spsc_pbuf_packets_padding : ∃ es s,
    Reaches (system 0 36 false fun _ => 0xFF) Undisturbed es s ∧
      (packetsRead es = [[1], [2], [3, 4]] ∧ s.rdIdx = 8) ∧
      packetsRead es <+: packetsWritten es ∧
      (packetsRead es = packetsWritten es ↔ Drained s) ∧
      (∀ n, s.consumer = .claimed n →
        packetsRead es ++ [s.data.list (s.rdIdx + lenSz) n] <+: packetsWritten es) ∧
      s.rdIdx < getLen 0 36 false ∧ s.wrIdx < getLen 0 36 false := by
  exact Reaches.of_exec_and
    [.alloc 1, .fill 0 1, .commit 1, .produce, .claim, .consume, .free, .consume, .consume,
      .alloc 4, .fill 0 2, .commit 1, .produce, .claim, .consume, .free, .consume, .consume,
      .alloc 2, .produce, .produce, .claim, .fill 0 3, .fill 1 4, .consume, .commit 2, .produce,
      .consume, .consume, .claim, .consume, .free, .consume] (by decide +kernel) fun es s hrun =>
      spsc_pbuf_packets (show 16 + 4 < 36 by decide) (by decide) (by decide) hrun

/-- A length that is no multiple of a word takes the write index out of the buffer; an index
above 2^16 is truncated; a packet of the greatest length is taken for the marker; and a byte that
looks like the marker makes the consumer read a packet twice. -/
theorem spsc_pbuf_packets_fail :
    (∃ es s, Reaches (system 0 30 false fun _ => 0) Undisturbed es s ∧ s.len = 14 ∧ s.wrIdx = 16) ∧
    (∃ es s, Reaches (system 0 70016 false fun _ => 1) Undisturbed es s ∧
      (packetsWritten es).length = 2 ∧ (packetsRead es).length = 3) ∧
    (∃ es s, Reaches (system 0 65552 false fun _ => 0) (fun _ _ => True) es s ∧
      (packetsWritten es).length = 2 ∧ packetsRead es = [[5], [5], [5]]) ∧
    ∃ es s, Reaches (system 0 48 false fun _ => 0xFF) (fun _ _ => True) es s ∧
      packetsWritten es = [[1], [2]] ∧ packetsRead es = [[1], [1]] := by
  refine ⟨?_, ?_, ?_, ?_⟩
  · exact Reaches.of_exec _ _
      [.alloc 4, .commit 4, .produce, .claim, .consume, .free, .consume,
        .alloc 2, .commit 2, .produce] _ (by decide +kernel)
  · exact Reaches.of_exec _ _
      [.alloc 65000, .commit 65000, .produce, .claim, .consume, .free, .consume,
        .alloc 600, .commit 600, .produce, .claim, .consume, .free, .consume,
        .claim, .consume, .free, .consume] _ (by decide +kernel)
  · exact Reaches.of_exec _ _
      [.alloc 1, .fill 0 5, .commit 1, .produce, .claim, .consume, .free, .consume,
        .alloc 65280, .commit 65280, .produce, .claim, .consume, .consume, .consume, .consume,
        .free, .consume, .consume, .claim, .consume, .free, .consume, .consume] _
      (by decide +kernel)
  · exact Reaches.of_exec _ _
      [.alloc 1, .fill 0 1, .commit 1, .produce, .claim, .consume, .free,
        .alloc 1, .fill 0 2, .commit 1, .produce, .consume, .consume,
        .claim, .consume, .free, .consume] _ (by decide +kernel)

end ZephyrRtos.SpscPbuf
