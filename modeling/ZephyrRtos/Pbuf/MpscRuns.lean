import ZephyrRtos.Pbuf.MpscInv

namespace ZephyrRtos.MpscPbuf

open List Lib RingTiles

variable {c : Config} {buf : ℕ → Word} {es es' : List Event} {s s' : State} {R k p : ℕ}
  {front rest : List Item}

namespace Inv

theorem call (h : Inv c es s R front rest k) (hop : op.Ok c)
    (hs : step c s (.call p op) = some (s', es')) : Inv c (es ++ es') s' R front rest k := by
  unfold MpscPbuf.step at hs
  cases hp : s.producers p with
  | some l => simp [hp] at hs
  | none =>
    have hset := h.setLoop (p := p) (l := some ⟨op, 0, 0, none⟩) (by simp [hp]) fun l hl => by
      obtain rfl := Option.some.inj hl
      exact ⟨hop, rfl, rfl⟩
    cases op with
    | alloc wlen wait =>
      simp only [hp] at hs
      obtain ⟨rfl, rfl⟩ := hs
      rw [append_nil]
      split
      · exact h
      · exact hset
    | _ =>
      simp only [hp] at hs
      obtain ⟨rfl, rfl⟩ := hs
      rwa [append_nil]

theorem step (h : Inv c es s R front rest k) (ha : Apart c s a) (hs : step c s a = some (s', es')) :
    ∃ R' front' rest' k', Inv c (es ++ es') s' R' front' rest' k' := by
  cases a with
  | call p op => exact ⟨R, front, rest, k, h.call ha hs⟩
  | turn p =>
    rw [MpscPbuf.step] at hs
    split at hs
    next hl =>
      obtain ⟨b, rest₁, hb, h₁⟩ := h.post hl rfl
      rw [producerTurn_eq hb] at hs
      have hturn := h₁.turn (Function.update_self ..)
      rwa [Option.some.inj hs] at hturn
    next => simp at hs
  | notify p =>
    rw [MpscPbuf.step] at hs
    split at hs
    next hl =>
      have hnotify := h.notify hl rfl
      rw [Option.some.inj hs] at hnotify
      exact ⟨R, front, rest, k, hnotify⟩
    next => simp at hs
  | giveUp p =>
    rw [MpscPbuf.step] at hs
    split at hs
    next hl =>
      cases hs
      rw [append_nil]
      refine ⟨R, front, rest, k, h.setLoop (fun l hl' => ?_) fun _ hl' => absurd hl' nofun⟩
      rw [← Option.some.inj (hl.symm.trans hl')]
    next => simp at hs
  | fill j m w =>
    rw [MpscPbuf.step] at hs
    split at hs
    next a ha =>
      split at hs
      next hm =>
        cases hs
        rw [append_nil]
        refine ⟨R, front, rest, k, h.fill (mem_of_getElem? ha) hm fun hzero => ?_⟩
        rw [if_pos hzero]
        exact ⟨rfl, rfl⟩
      next => simp at hs
    next => simp at hs
  | commit j =>
    rw [MpscPbuf.step] at hs
    split at hs
    next a ha =>
      split at hs
      next hwlen =>
        obtain ⟨rest', hcommit⟩ := h.commit ha hwlen
        rw [Option.some.inj hs] at hcommit
        exact ⟨R, front, rest', k, hcommit⟩
      next => simp at hs
    next => simp at hs
  | claim =>
    have hclaim := h.claim_spec ha
    rw [Option.some.inj hs] at hclaim
    cases hclaim with
    | none hnone hnew => exact ⟨R, front, rest, k, by rwa [append_nil]⟩
    | skip hnone hheld h' => exact ⟨_, _, _, k, by rwa [append_nil]⟩
    | packet hnone hcommitted h' => exact ⟨_, _, _, k + 1, h'⟩
  | free =>
    rw [MpscPbuf.step] at hs
    split at hs
    next => simp at hs
    next item held hheld =>
      cases hs
      obtain ⟨R', front', rest', h'⟩ := h.free hheld
      exact ⟨R', front', rest', k, by rwa [append_nil]⟩

end Inv

theorem Reaches.inv (hpos : 0 < c.size) (h : Reaches (system c buf) (Apart c) es s) :
    ∃ R front rest k, Inv c es s R front rest k :=
  Run.invariant (I := fun es s => ∃ R front rest k, Inv c es s R front rest k)
    ⟨0, [], [], 0, .init c buf hpos⟩ (fun _ _ _ _ _ ⟨_, _, _, _, h⟩ ha hs => h.step ha hs) h

/-- A call of `mpsc_pbuf_claim`, which goes past what can be skipped, and the packet it returns. -/
inductive ClaimReturns (c : Config) : State → Option (ℕ × List Word) → Prop
  | none {s : State} : claimsNone c s.buffer → ClaimReturns c s none
  | packet {s : State} {id : ℕ} {ws : List Word} : ¬claimsNone c s.buffer →
      (claim c s).2 = [.claimed id ws] → ClaimReturns c s (some (id, ws))
  | skip {s : State} {r : Option (ℕ × List Word)} : ¬claimsNone c s.buffer → (claim c s).2 = [] →
      ClaimReturns c (claim c s).1 r → ClaimReturns c s r

/-- The number of the packet that producer `p` has dropped and has yet to tell the user about. -/
def unreported (s : State) (p : ℕ) : List ℕ :=
  match s.producers p with
  | some ⟨_, _, _, some item⟩ => [s.buffer.stamp item]
  | _ => []

/-- What a claim returns when the packets before the one with the number `k` have left the queue. -/
def ReturnsNext (c : Config) (es : List Event) (s : State) (k : ℕ) : Option (ℕ × List Word) → Prop
  | some x => x.1 = k ∧ x ∈ committedPackets es
  | none => (∀ x ∈ committedPackets es, x.1 ≠ k) ∨
      c.overwrite = true ∧ ∃ p l, s.producers p = some l ∧ l.tmpWrIdxShift ≠ 0

/-- The packets with the numbers below `k` have left the queue, and no others. -/
structure Delivered (c : Config) (es : List Event) (s : State) (k : ℕ) : Prop where
  /-- They left in the order of their allocation, and each one once: claimed, or dropped. -/
  taken : takenIds es = List.range k
  nodup : ((committedPackets es).map Prod.fst).Nodup
  claims : ∀ x ∈ claimedPackets es, x ∈ committedPackets es
  notified : ∀ p, ∀ x ∈ notifiedPackets p es, x ∈ committedPackets es
  dropped : ∀ p, droppedIds p es = (notifiedPackets p es).map Prod.fst ++ unreported s p
  /-- What the consumer holds is as it was claimed. -/
  held : ∀ item ∈ s.held, (s.buffer.stamp item, packetAt c s.buffer item) ∈ claimedPackets es
  /-- No packet waits in vain: it is the next one that is returned, unless it is not committed or
  its place in the queue is behind what a producer is dropping. -/
  next : Apart c s .claim → ∃ r, ClaimReturns c s r ∧ ReturnsNext c es s k r

namespace Inv

section

variable (h : Inv c es s R front rest k)
include h

theorem claimReturns (ha : Apart c s .claim) :
    ∃ r, ClaimReturns c s r ∧ ReturnsNext c es s k r := by
  -- each skip packet that is passed leaves fewer items
  induction hm : rest.length using Nat.strong_induction_on generalizing s R front rest with
  | _ m ih =>
    subst hm
    have hclaim := h.claim_spec ha
    generalize hcl : claim c s = cl at hclaim
    cases hclaim with
    | none hnone hnew => exact ⟨none, .none hnone, hnew⟩
    | packet hnone hcommitted h' =>
      exact ⟨_, .packet hnone (congrArg Prod.snd hcl), rfl, hcommitted⟩
    | skip hnone hheld h' hlt hproducers =>
      obtain ⟨r, hr, hnext⟩ := ih _ hlt h' (.inl hheld) rfl
      refine ⟨r, .skip hnone (congrArg Prod.snd hcl) (by rwa [hcl]), ?_⟩
      cases r with
      | some x => exact hnext
      | none =>
        rwa [ReturnsNext, hproducers] at hnext

theorem unreported_eq (p : ℕ) :
    droppedIds p es = (notifiedPackets p es).map Prod.fst ++ unreported s p := by
  rw [unreported]
  split
  next hl =>
    obtain ⟨id, ws, off, hmem, hitem, hids⟩ := h.links.dropped hl rfl
    obtain ⟨-, -, -, -, hok⟩ := h.shape.tiled _ (mem_marks.1 hmem).1
    rw [hids, hitem, hok.stamp]
  next hl =>
    obtain ⟨ids, hids, heq⟩ := h.links.loops p
    rw [heq]
    congr 1
    cases hp : s.producers p with
    | none =>
      rwa [hp] at hids
    | some l =>
      obtain ⟨op, shift, val, item⟩ := l
      cases item with
      | some item => exact absurd hp (hl op shift val item)
      | none =>
        rw [hp] at hids
        obtain ⟨-, hids⟩ := hids
        split at hids
        · exact hids.2
        · obtain ⟨-, -, _, -, ⟨-, hids⟩ | ⟨hsome, -⟩⟩ := hids
          · exact hids
          · simp at hsome

theorem held_intact :
    ∀ item ∈ s.held, (s.buffer.stamp item, packetAt c s.buffer item) ∈ claimedPackets es := by
  intro item hitem
  rw [h.links.held] at hitem
  obtain ⟨⟨_, i⟩, he, rfl⟩ := mem_map.1 hitem
  obtain ⟨hmem, hi⟩ := mem_filter.1 he
  obtain ⟨hplaced, -⟩ := mem_marks.1 hmem
  have hin := mem_of_mem_placed hplaced
  obtain ⟨-, -, hok⟩ := h.shape.tiled _ hplaced
  obtain ⟨len, kind⟩ := i
  cases kind with
  | claimed id ws =>
    rw [hok.stamp, hok.packetAt]
    exact h.log.held _ hin id ws rfl
  | _ => exact absurd hi (by simp [Item.isClaimed])

theorem delivered : Delivered c es s k where
  taken := h.log.taken
  nodup := h.log.nodup
  claims := h.log.claims
  notified := h.log.notified
  dropped := h.unreported_eq
  held := h.held_intact
  next := h.claimReturns

end

end Inv

instance (c : Config) (ws : List Word) : Decidable (PutOk c ws) :=
  match ws with
  | [] => isFalse fun ⟨_, _, h, _⟩ => absurd h (by simp)
  | h :: rest =>
    decidable_of_iff (h.valid = true ∧ h.busy = false ∧ c.getWlen h.data = (h :: rest).length)
      ⟨fun hok => ⟨h, rest, rfl, hok⟩, fun ⟨_, _, heq, hok⟩ => by
        obtain ⟨rfl, rfl⟩ := List.cons.inj heq
        exact hok⟩

instance (c : Config) : (op : Op) → Decidable (op.Ok c)
  | .putWord item => inferInstanceAs (Decidable (PutOk c [item]))
  | .putWordExt item data => inferInstanceAs (Decidable (PutOk c (item :: data)))
  | .putData data => inferInstanceAs (Decidable (PutOk c data))
  | .alloc wlen _ => inferInstanceAs (Decidable (0 < wlen))

instance (c : Config) (s : State) : (a : Action) → Decidable (Apart c s a)
  | .call _ op => inferInstanceAs (Decidable (op.Ok c))
  | .claim => inferInstanceAs (Decidable (_ ∨ _ ∧ (_ → _)))
  | .turn _ | .notify _ | .giveUp _ | .fill .. | .commit _ | .free => isTrue trivial

/-- The calls are as they should be, and the consumer claims when it likes. -/
def Called (c : Config) (_ : State) : Action → Prop
  | .call _ op => op.Ok c
  | _ => True

instance (c : Config) (s : State) : (a : Action) → Decidable (Called c s a)
  | .call _ op => inferInstanceAs (Decidable (op.Ok c))
  | .claim | .turn _ | .notify _ | .giveUp _ | .fill .. | .commit _ | .free => isTrue trivial

end ZephyrRtos.MpscPbuf
