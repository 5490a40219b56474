import ZephyrRtos.Lib.Ring
import ZephyrRtos.Msgq.Model

namespace ZephyrRtos.Msgq

open Lib Sched Ring

variable {cfg : Config} {τ : Type} {s : State cfg τ} {mem : Memory} {data : Msg cfg} {r w j n : ℕ}

namespace Config

def slotPtr (cfg : Config) (j : ℕ) : ℕ := cfg.bufferStart + j * cfg.msgSize

def slot (cfg : Config) (mem : Memory) (j : ℕ) : Msg cfg := mem.bytes (cfg.slotPtr j) cfg.msgSize

theorem slotPtr_succ : cfg.slotPtr (j + 1) = cfg.slotPtr j + cfg.msgSize := by
  rw [slotPtr, slotPtr, Nat.succ_mul, add_assoc]

theorem slotPtr_mono (h : j ≤ n) : cfg.slotPtr j ≤ cfg.slotPtr n :=
  Nat.add_le_add_left (Nat.mul_le_mul_right _ h) _

theorem slotPtr_inj (hs : 0 < cfg.msgSize) : cfg.slotPtr j = cfg.slotPtr n ↔ j = n := by
  simp [slotPtr, hs.ne']

theorem slotPtr_of_empty (hs : cfg.msgSize = 0) : cfg.slotPtr j = cfg.bufferStart := by
  simp [slotPtr, hs]

theorem slot_setBytes_self : cfg.slot (mem.setBytes (cfg.slotPtr j) data) j = data :=
  mem.bytes_setBytes_self _ data

theorem slot_setBytes_of_ne (h : j ≠ n) :
    cfg.slot (mem.setBytes (cfg.slotPtr n) data) j = cfg.slot mem j := by
  apply mem.bytes_setBytes_of_disjoint
  rw [← slotPtr_succ, ← slotPtr_succ]
  exact h.lt_or_gt.imp slotPtr_mono slotPtr_mono

end Config

open Config

theorem nextSlot_slotPtr (h : j < cfg.maxMsgs) :
    State.nextSlot cfg (cfg.slotPtr j) = cfg.slotPtr ((j + 1) % cfg.maxMsgs) := by
  obtain hs | hs := eq_zero_or_pos cfg.msgSize
  · simp [State.nextSlot, slotPtr_of_empty hs, hs]
  rw [State.nextSlot, ← slotPtr_succ, bufferEnd, ← slotPtr]
  simp only [slotPtr_inj hs]
  split
  · next hj => rw [hj, Nat.mod_self, slotPtr, zero_mul, add_zero]
  · rw [Nat.mod_eq_of_lt (by omega)]

theorem slots_eq_ring (h : r < cfg.maxMsgs) :
    State.slots cfg mem n (cfg.slotPtr r) = ring (cfg.slot mem) cfg.maxMsgs r n := by
  induction n generalizing r with
  | zero => rfl
  | succ n ih =>
    rw [State.slots, nextSlot_slotPtr h, ih (Nat.mod_lt _ (Nat.zero_lt_of_lt h)), ring_mod,
      ring_cons, Nat.mod_eq_of_lt h]
    rfl

/-- The read pointer is at slot `r` and the used slots end at the write pointer. -/
structure State.Layout (s : State cfg τ) (r : ℕ) : Prop where
  lt : r < cfg.maxMsgs
  readPtr : s.readPtr = cfg.slotPtr r
  writePtr : s.writePtr = cfg.slotPtr ((r + s.usedMsgs) % cfg.maxMsgs)
  used_le : s.usedMsgs ≤ cfg.maxMsgs

namespace State.Layout

section

variable (h : s.Layout r)
include h

theorem ring_eq : s.ring = Lib.ring (cfg.slot s.mem) cfg.maxMsgs r s.usedMsgs := by
  rw [State.ring, h.readPtr, slots_eq_ring h.lt]

theorem length_ring : s.ring.length = s.usedMsgs := by
  rw [h.ring_eq, Ring.length_ring]

theorem writeBack (data : Msg cfg) (hlt : s.usedMsgs < cfg.maxMsgs) :
    (s.writeBack data).Layout r ∧ (s.writeBack data).ring = s.ring ++ [data] := by
  have hpos : 0 < cfg.maxMsgs := Nat.zero_lt_of_lt hlt
  have hl : (s.writeBack data).Layout r := by
    refine ⟨h.lt, h.readPtr, ?_, hlt⟩
    simp only [State.writeBack]
    rw [h.writePtr, nextSlot_slotPtr (Nat.mod_lt _ hpos), Nat.mod_add_mod, add_assoc]
  refine ⟨hl, ?_⟩
  rw [hl.ring_eq, h.ring_eq]
  refine ring_pushBack hlt ?_ fun j _ hj => ?_
  · simp [State.writeBack, h.writePtr, slot_setBytes_self]
  · simp [State.writeBack, h.writePtr, slot_setBytes_of_ne hj]

theorem prevSlot :
    (if s.readPtr = cfg.bufferStart then cfg.bufferEnd else s.readPtr) - cfg.msgSize =
      cfg.slotPtr ((r + (cfg.maxMsgs - 1)) % cfg.maxMsgs) := by
  have hlt := h.lt
  obtain hs | hs := eq_zero_or_pos cfg.msgSize
  · simp [h.readPtr, slotPtr_of_empty hs, bufferEnd, hs]
  have h0 : cfg.bufferStart = cfg.slotPtr 0 := by simp [slotPtr]
  rw [h.readPtr, h0]
  simp only [slotPtr_inj hs]
  split
  · next hr =>
    have hmax : cfg.bufferEnd = cfg.slotPtr (cfg.maxMsgs - 1) + cfg.msgSize := by
      rw [← slotPtr_succ, Nat.sub_add_cancel (Nat.zero_lt_of_lt hlt), bufferEnd, slotPtr]
    rw [hmax, Nat.add_sub_cancel, hr, zero_add, Nat.mod_eq_of_lt (by omega)]
  · next hr =>
    have hmod : (r + (cfg.maxMsgs - 1)) % cfg.maxMsgs = r - 1 := by
      rw [show r + (cfg.maxMsgs - 1) = (r - 1) + cfg.maxMsgs by omega, Nat.add_mod_right,
        Nat.mod_eq_of_lt (by omega)]
    have hsucc : cfg.slotPtr r = cfg.slotPtr (r - 1) + cfg.msgSize := by
      rw [← slotPtr_succ, Nat.sub_add_cancel (pos_of_ne_zero hr)]
    rw [hmod, hsucc, Nat.add_sub_cancel]

theorem writeFront (data : Msg cfg) (hlt : s.usedMsgs < cfg.maxMsgs) :
    ∃ r', (s.writeFront data).Layout r' ∧ (s.writeFront data).ring = data :: s.ring := by
  have hpos : 0 < cfg.maxMsgs := Nat.zero_lt_of_lt hlt
  have hback : ((r + (cfg.maxMsgs - 1)) % cfg.maxMsgs + 1) % cfg.maxMsgs = r := by
    rw [Nat.mod_add_mod, show r + (cfg.maxMsgs - 1) + 1 = r + cfg.maxMsgs by omega,
      Nat.add_mod_right, Nat.mod_eq_of_lt h.lt]
  have hl : (s.writeFront data).Layout ((r + (cfg.maxMsgs - 1)) % cfg.maxMsgs) := by
    refine ⟨Nat.mod_lt _ hpos, h.prevSlot, ?_, hlt⟩
    simp only [State.writeFront]
    rw [h.writePtr, add_comm s.usedMsgs, ← add_assoc,
      ← Nat.mod_add_mod (_ % cfg.maxMsgs + 1), hback]
  refine ⟨_, hl, ?_⟩
  rw [hl.ring_eq, h.ring_eq]
  simp only [State.writeFront, h.prevSlot]
  rw [ring_pushFront hlt, ← ring_mod, hback]
  · rw [Nat.mod_mod, slot_setBytes_self]
  · intro j _ hj
    rw [Nat.mod_mod] at hj
    exact slot_setBytes_of_ne hj

theorem take (s' : State cfg τ) (hn : s.usedMsgs = n + 1) (hm : s'.mem = s.mem)
    (hr : s'.readPtr = nextSlot cfg s.readPtr) (hw : s'.writePtr = s.writePtr)
    (hu : s'.usedMsgs = n) :
    (∃ r', s'.Layout r') ∧ s.ring = s.mem.bytes s.readPtr cfg.msgSize :: s'.ring := by
  refine ⟨⟨(r + 1) % cfg.maxMsgs, Nat.mod_lt _ (Nat.zero_lt_of_lt h.lt), ?_, ?_, ?_⟩, ?_⟩
  · rw [hr, h.readPtr, nextSlot_slotPtr h.lt]
  · rw [hw, hu, h.writePtr, hn, Nat.mod_add_mod, add_assoc, add_comm 1]
  · rw [hu]
    exact Nat.le_of_succ_le (hn.symm.trans_le h.used_le)
  · rw [State.ring, hn, slots, State.ring, hm, hr, hu]

theorem purge (s' : State cfg τ) (hr : s'.readPtr = s.writePtr) (hw : s'.writePtr = s.writePtr)
    (hu : s'.usedMsgs = 0) : (∃ r', s'.Layout r') ∧ s'.ring = [] := by
  refine ⟨⟨(r + s.usedMsgs) % cfg.maxMsgs, Nat.mod_lt _ (Nat.zero_lt_of_lt h.lt), ?_, ?_, ?_⟩, ?_⟩
  · rw [hr, h.writePtr]
  · rw [hw, hu, add_zero, Nat.mod_mod, h.writePtr]
  · exact hu ▸ Nat.zero_le _
  · rw [State.ring, hu, slots]

theorem peekAddr (hfit : cfg.maxMsgs * cfg.msgSize ≤ 2 ^ 32) (hj : j < s.usedMsgs) :
    s.peekAddr j = cfg.slotPtr ((r + j) % cfg.maxMsgs) := by
  have hlt := h.lt
  have hle := h.used_le
  obtain hs | hs := eq_zero_or_pos cfg.msgSize
  · simp [State.peekAddr, h.readPtr, slotPtr_of_empty hs, hs]
  have hoff : j * cfg.msgSize < 2 ^ 32 :=
    lt_of_lt_of_le (mul_lt_mul_of_pos_right (hj.trans_le hle) hs) hfit
  have hend : cfg.bufferEnd - s.readPtr = (cfg.maxMsgs - r) * cfg.msgSize := by
    rw [h.readPtr, bufferEnd, slotPtr, Nat.add_sub_add_left, Nat.sub_mul]
  have hbe : (cfg.maxMsgs - r) * cfg.msgSize ≤ cfg.maxMsgs * cfg.msgSize :=
    Nat.mul_le_mul_right _ (Nat.sub_le ..)
  simp only [State.peekAddr, hend, Nat.mod_eq_of_lt hoff]
  obtain hlt32 | heq := (hbe.trans hfit).lt_or_eq
  · simp only [Nat.mod_eq_of_lt hlt32, Nat.mul_le_mul_right_iff hs]
    split
    · rw [← Nat.sub_mul, Nat.mod_eq_sub_mod (by omega), Nat.mod_eq_of_lt (by omega), slotPtr,
        show j - (cfg.maxMsgs - r) = r + j - cfg.maxMsgs by omega]
    · rw [h.readPtr, Nat.mod_eq_of_lt (by omega), slotPtr, slotPtr, add_mul, add_assoc]
  · -- the whole address space of 32 bits is left, which counts as nothing
    have hr : cfg.maxMsgs - r = cfg.maxMsgs :=
      Nat.eq_of_mul_eq_mul_right hs (hbe.antisymm (hfit.trans heq.ge))
    rw [heq, Nat.mod_self, if_pos (Nat.zero_le _), Nat.sub_zero, slotPtr,
      show r + j = j by omega, Nat.mod_eq_of_lt (by omega)]

theorem peek (hj : j < s.usedMsgs) :
    s.ring[j]? = some (cfg.slot s.mem ((r + j) % cfg.maxMsgs)) := by
  rw [h.ring_eq]
  simp [Lib.ring, hj]

end

end State.Layout

end ZephyrRtos.Msgq
