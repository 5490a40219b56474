import Mathlib.Tactic.Linarith

/-! The congestion window of a TCP connection, whose fields have 16 bits. -/

namespace ZephyrRtos.Tcp

/-- `pending` is `pending_fast_retransmit_bytes`. -/
structure Conn where
  cwnd : ℤ
  ssthresh : ℤ
  pending : ℤ
  unackedLen : ℤ
  deriving DecidableEq

/-- `unacked` is any change of the data that is sent and not acknowledged. -/
inductive Event
  | unacked (len : ℕ)
  | newAck (len : ℕ)
  | dupAck
  | fastRetransmit
  | timeout

def uint16 (x : ℤ) : ℤ := x % 2 ^ 16

/-- Here and below `store` is `uint16`, or the identity for fields without a limit. -/
def tcpNewRenoInit (store : ℤ → ℤ) (mss : ℤ) : Conn := ⟨store mss, store (mss * 3), 0, 0⟩

def tcpNewRenoPktsAcked (store : ℤ → ℤ) (mss : ℤ) (s : Conn) (len : ℤ) : Conn :=
  let inc := min len mss
  if s.pending = 0 then
    let newWin := s.cwnd + if s.cwnd < s.ssthresh then inc else (inc * inc + s.cwnd - 1) / s.cwnd
    { s with cwnd := store (min newWin 65535) }
  else if s.pending ≤ len then { s with pending := 0, cwnd := s.ssthresh }
  else { s with pending := store (s.pending - len), cwnd := store (s.cwnd - len) }

def step (store : ℤ → ℤ) (mss : ℤ) (s : Conn) : Event → Conn
  | .unacked len => { s with unackedLen := len }
  | .newAck len => tcpNewRenoPktsAcked store mss s len
  | .dupAck => { s with cwnd := store (min (s.cwnd + mss) 65535) }
  | .fastRetransmit =>
    let ssthresh := store (max (mss * 2) (s.unackedLen / 2))
    if s.pending = 0 then
      { s with ssthresh, cwnd := store (mss * 3 + ssthresh), pending := store s.unackedLen }
    else s
  | .timeout => { s with ssthresh := store (max (mss * 2) (s.unackedLen / 2)), cwnd := store mss }

/-- What is sent fits the window of 16 bits, and only that is acknowledged. -/
def Event.Possible (s : Conn) : Event → Prop
  | .unacked len => len < 2 ^ 16
  | .newAck len => len ≤ s.unackedLen
  | _ => True

/-- In fast recovery a new ACK ends it, or leaves a window of one MSS. -/
def Event.Mild (mss : ℤ) (s : Conn) : Event → Prop
  | .newAck len => s.pending = 0 ∨ s.pending ≤ len ∨ len + mss ≤ s.cwnd
  | _ => True

structure Bounded (mss : ℤ) (s : Conn) : Prop where
  cwnd : mss ≤ s.cwnd ∧ s.cwnd < 2 ^ 16
  ssthresh : mss * 2 ≤ s.ssthresh ∧ s.ssthresh < 2 ^ 16
  pending : 0 ≤ s.pending ∧ s.pending < 2 ^ 16
  unackedLen : 0 ≤ s.unackedLen ∧ s.unackedLen < 2 ^ 16

theorem uint16_eq {x : ℤ} (h0 : 0 ≤ x := by omega) (h : x < 2 ^ 16 := by omega) : uint16 x = x :=
  Int.emod_eq_of_lt h0 h

section

variable {mss : ℤ} {s : Conn} (hmss : 0 < mss ∧ mss ≤ 10922)
include hmss

theorem Bounded.init : Bounded mss (tcpNewRenoInit uint16 mss) := by
  rw [tcpNewRenoInit, uint16_eq, uint16_eq]
  constructor <;> dsimp only <;> omega

theorem Bounded.pktsAcked (h : Bounded mss s) {len : ℕ}
    (hm : s.pending = 0 ∨ s.pending ≤ len ∨ len + mss ≤ s.cwnd) :
    Bounded mss (tcpNewRenoPktsAcked uint16 mss s len) ∧
      tcpNewRenoPktsAcked uint16 mss s len = tcpNewRenoPktsAcked id mss s len := by
  obtain ⟨hcwnd, hssthresh, hpending, hunacked⟩ := h
  simp only [tcpNewRenoPktsAcked, id]
  split
  · have hdiv : 0 ≤ (min (len : ℤ) mss * min (len : ℤ) mss + s.cwnd - 1) / s.cwnd :=
      Int.ediv_nonneg (by have := mul_self_nonneg (min (len : ℤ) mss); omega) (by omega)
    have hinc : 0 ≤ if s.cwnd < s.ssthresh then min (len : ℤ) mss else
        (min (len : ℤ) mss * min (len : ℤ) mss + s.cwnd - 1) / s.cwnd := by
      split <;> omega
    rw [uint16_eq]
    exact ⟨⟨by dsimp only; omega, hssthresh, hpending, hunacked⟩, rfl⟩
  split
  · exact ⟨⟨by dsimp only; omega, hssthresh, by dsimp only; omega, hunacked⟩, rfl⟩
  · rw [uint16_eq, uint16_eq]
    exact ⟨⟨by dsimp only; omega, hssthresh, by dsimp only; omega, hunacked⟩, rfl⟩

theorem Bounded.step (h : Bounded mss s) (hp : e.Possible s) (hm : e.Mild mss s) :
    Bounded mss (step uint16 mss s e) ∧ step uint16 mss s e = step id mss s e := by
  obtain ⟨hcwnd, hssthresh, hpending, hunacked⟩ := h
  cases e with
  | unacked len =>
    rw [Event.Possible] at hp
    exact ⟨⟨hcwnd, hssthresh, hpending, by dsimp only [Tcp.step]; omega⟩, rfl⟩
  | newAck len => exact Bounded.pktsAcked hmss ⟨hcwnd, hssthresh, hpending, hunacked⟩ hm
  | dupAck =>
    simp only [Tcp.step]
    rw [uint16_eq]
    exact ⟨⟨by dsimp only; omega, hssthresh, hpending, hunacked⟩, rfl⟩
  | fastRetransmit =>
    simp only [Tcp.step, id]
    rw [uint16_eq (x := max _ _), uint16_eq, uint16_eq]
    split
    · exact ⟨⟨by dsimp only; omega, by dsimp only; omega, hunacked, hunacked⟩, rfl⟩
    · exact ⟨⟨hcwnd, hssthresh, hpending, hunacked⟩, rfl⟩
  | timeout =>
    simp only [Tcp.step]
    rw [uint16_eq, uint16_eq]
    exact ⟨⟨by dsimp only; omega, by dsimp only; omega, hpending, hunacked⟩, rfl⟩

end

/-- The events that can follow one another, each of them mild. -/
def Run (mss : ℤ) : Conn → List Event → Prop
  | _, [] => True
  | s, e :: es => e.Possible s ∧ e.Mild mss s ∧ Run mss (step uint16 mss s e) es

theorem Bounded.run (hmss : 0 < mss ∧ mss ≤ 10922) (h : Bounded mss s) (hrun : Run mss s es) :
    Bounded mss (es.foldl (Tcp.step uint16 mss) s) ∧
      es.foldl (Tcp.step uint16 mss) s = es.foldl (Tcp.step id mss) s := by
  induction es generalizing s with
  | nil => exact ⟨h, rfl⟩
  | cons e es ih =>
    obtain ⟨hp, hm, hrun⟩ := hrun
    obtain ⟨hstep, heq⟩ := h.step hmss hp hm
    rw [List.foldl_cons, List.foldl_cons, ← heq]
    exact ih hstep hrun

/-- With an MSS that leaves room and mild events nothing is cut off by the fields, the window does
not fall below one MSS or the threshold below two, and what is divided by is not zero. -/
theorem tcp_congestion_bounded (mss : ℤ) (hmss : 0 < mss ∧ mss ≤ 10922) :
    Bounded mss (tcpNewRenoInit uint16 mss) ∧
    ∀ s es, Bounded mss s → Run mss s es →
      es.foldl (step uint16 mss) s = es.foldl (step id mss) s ∧
      mss ≤ (es.foldl (step uint16 mss) s).cwnd ∧
      mss * 2 ≤ (es.foldl (step uint16 mss) s).ssthresh ∧
      (es.foldl (step uint16 mss) s).cwnd ≠ 0 := by
  refine ⟨Bounded.init hmss, fun s es h hrun => ?_⟩
  obtain ⟨hbounded, heq⟩ := h.run hmss hrun
  have hcwnd := hbounded.cwnd
  exact ⟨heq, hcwnd.1, hbounded.ssthresh.1, by omega⟩

theorem tcp_congestion_bounded_default : Bounded 536 (tcpNewRenoInit uint16 536) :=
  (tcp_congestion_bounded 536 (by decide)).1

/-- Data of nine MSS is sent and retransmitted, and an ACK for most of it then takes more from the
window than there is. -/
theorem tcp_congestion_wraps :
    [.unacked 536, .dupAck, .dupAck, .unacked 1608, .newAck 1, .dupAck, .dupAck, .newAck 1, .dupAck,
      .dupAck, .newAck 1, .dupAck, .dupAck, .unacked 4827, .dupAck, .fastRetransmit, .newAck 4500].foldl
        (step uint16 536) (tcpNewRenoInit uint16 536) = ⟨65057, 2413, 327, 4827⟩ := by
  decide +kernel

end ZephyrRtos.Tcp
