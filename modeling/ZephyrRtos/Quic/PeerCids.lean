import Mathlib.Data.List.FinRange
import ZephyrRtos.Lib.Run

/-! The connection IDs that a QUIC peer has issued, and those that are still to be retired. -/

namespace ZephyrRtos.Quic

open List Function Lib

/-- `cid` stands for the ID and its stateless reset token. -/
structure PeerCid (ι : Type) where
  seqNum : ℕ
  cid : ι
  active : Bool

/-- `flushing` is the number that a flush has taken from the backlog, and whether it was sent. -/
structure State (n : ℕ) (ι : Type) where
  pool : Fin n → PeerCid ι
  retirePriorTo : ℕ
  backlog : List ℕ
  flushing : Option (ℕ × Bool)

inductive Event
  | received (seqNum retirePriorTo : ℕ)
  | removed (seqNum : ℕ)
  | sent (seqNum : ℕ)
  deriving DecidableEq

/-- `sent` tells for which slots there is budget left and the send succeeds. -/
inductive Action (n : ℕ) (ι : Type)
  | frame (seqNum retirePriorTo : ℕ) (cid : ι) (sent : Fin n → Bool)
  | flush
  | flushSend (sent : Bool)
  | flushDrop

variable {n r : ℕ} {ι : Type} {s s' : State n ι} {es es' : List Event} {sent : Fin n → Bool}

/-- The oldest one is dropped if the backlog is full. -/
def cidRetireDefer (n : ℕ) (backlog : List ℕ) (seqNum : ℕ) : List ℕ :=
  (if backlog.length = n then backlog.tail else backlog) ++ [seqNum]

namespace State

def retired (s : State n ι) (retirePriorTo : ℕ) : List (Fin n) :=
  (finRange n).filter fun i => (s.pool i).active && decide ((s.pool i).seqNum < retirePriorTo)

def deferred (s : State n ι) (retirePriorTo : ℕ) (sent : Fin n → Bool) : List ℕ :=
  ((s.retired retirePriorTo).filter fun i => !sent i).map fun i => (s.pool i).seqNum

/-- The loop that retires: each pass looks at one slot of its own. -/
def retire (s : State n ι) (retirePriorTo : ℕ) (sent : Fin n → Bool) : State n ι × List Event :=
  ({ s with
    pool i :=
      if i ∈ s.retired retirePriorTo then { s.pool i with active := false } else s.pool i
    retirePriorTo
    backlog := (s.deferred retirePriorTo sent).foldl (cidRetireDefer n) s.backlog },
    (s.retired retirePriorTo).flatMap fun i =>
      .removed (s.pool i).seqNum :: if sent i then [.sent (s.pool i).seqNum] else [])

def store (s : State n ι) (seqNum : ℕ) (cid : ι) : State n ι :=
  match (finRange n).find? fun i => !(s.pool i).active with
  | some i => { s with pool := update s.pool i ⟨seqNum, cid, true⟩ }
  | none => s

def handleNewConnectionIdFrame (s : State n ι) (seqNum retirePriorTo : ℕ) (cid : ι)
    (sent : Fin n → Bool) : State n ι × List Event :=
  let (s, es) := if retirePriorTo > s.retirePriorTo then s.retire retirePriorTo sent else (s, [])
  (s.store seqNum cid, .received seqNum retirePriorTo :: es)

def step (s : State n ι) : Action n ι → Option (State n ι × List Event)
  | .frame seqNum retirePriorTo cid sent =>
    if retirePriorTo > seqNum then some (s, [])
    else some (s.handleNewConnectionIdFrame seqNum retirePriorTo cid sent)
  | .flush =>
    if s.flushing = none then some ({ s with flushing := s.backlog.head?.map (·, false) }, [])
    else none
  | .flushSend sent =>
    match s.flushing with
    | some (seqNum, false) =>
      if sent then some ({ s with flushing := some (seqNum, true) }, [.sent seqNum])
      else some ({ s with flushing := none }, [])
    | _ => none
  | .flushDrop =>
    match s.flushing with
    | some (seqNum, true) =>
      some ({ s with
        backlog := if s.backlog.head? = some seqNum then s.backlog.tail else s.backlog
        flushing := none }, [])
    | _ => none

def init (pool : Fin n → PeerCid ι) : State n ι := ⟨pool, 0, [], none⟩

end State

def endpoint (pool : Fin n → PeerCid ι) : System (State n ι) (Action n ι) Event where
  init := .init pool
  step := State.step

namespace State

/-- A frame has a new number that is not yet to be retired, and the backlog has space for the
retirements that it causes and that cannot be sent. -/
def Orderly (s : State n ι) : Action n ι → Prop
  | .frame seqNum retirePriorTo _ sent =>
    (∀ i, (s.pool i).active → (s.pool i).seqNum ≠ seqNum) ∧ s.retirePriorTo ≤ seqNum ∧
      s.backlog.length + (s.deferred retirePriorTo sent).length ≤ n
  | _ => True

instance (s : State n ι) : ∀ a, Decidable (s.Orderly a)
  | .frame .. => inferInstanceAs (Decidable (_ ∧ _))
  | .flush | .flushSend _ | .flushDrop => inferInstanceAs (Decidable True)

structure Inv (es : List Event) (s : State n ι) : Prop where
  unique : ∀ i j, (s.pool i).active → (s.pool j).active → (s.pool i).seqNum = (s.pool j).seqNum →
    i = j
  current : ∀ i, (s.pool i).active → s.retirePriorTo ≤ (s.pool i).seqNum
  received : ∀ x r, .received x r ∈ es → r ≤ s.retirePriorTo
  removed : ∀ x, .removed x ∈ es → .sent x ∈ es ∨ x ∈ s.backlog
  flushing : ∀ x, s.flushing = some (x, true) → .sent x ∈ es

theorem foldl_defer {xs backlog : List ℕ} (h : backlog.length + xs.length ≤ n) :
    xs.foldl (cidRetireDefer n) backlog = backlog ++ xs := by
  induction xs generalizing backlog with
  | nil => rw [append_nil]; rfl
  | cons x xs ih =>
    rw [length_cons] at h
    rw [foldl_cons, cidRetireDefer, if_neg (by omega), ih (by simp; omega), append_assoc]
    rfl

theorem active_retire (h : ((s.retire r sent).1.pool i).active) :
    (s.retire r sent).1.pool i = s.pool i ∧ (s.pool i).active ∧ r ≤ (s.pool i).seqNum := by
  simp only [retire] at h ⊢
  split at h
  · simp at h
  · next hi => simp_all [retired]

theorem Inv.retire (h : Inv es s) (hr : s.retirePriorTo ≤ r)
    (hroom : s.backlog.length + (s.deferred r sent).length ≤ n) :
    Inv (es ++ .received x r :: (s.retire r sent).2) (s.retire r sent).1 := by
  refine ⟨fun i j hi hj hij => ?_, fun i hi => ?_, fun y r' hy => ?_, fun y hy => ?_, fun y hy => ?_⟩
  · obtain ⟨hi, hia, -⟩ := active_retire hi
    obtain ⟨hj, hja, -⟩ := active_retire hj
    rw [hi, hj] at hij
    exact h.unique i j hia hja hij
  · obtain ⟨heq, -, hle⟩ := active_retire hi
    rwa [heq]
  · obtain hy | hy : .received y r' ∈ es ∨ r' = r := by simp_all [State.retire]; grind
    · exact (h.received y r' hy).trans hr
    · exact hy.le
  · simp only [State.retire, foldl_defer hroom, mem_append, mem_cons, mem_flatMap] at hy ⊢
    obtain hy | hy | ⟨i, hi, hy⟩ := hy
    · exact (h.removed y hy).imp .inl .inl
    · cases hy
    · cases hi' : sent i with
      | true => exact .inl (.inr (.inr ⟨i, hi, by simp_all⟩))
      | false =>
        obtain rfl : y = (s.pool i).seqNum := by simpa using hy
        exact .inr (.inr (mem_map.2 ⟨i, mem_filter.2 ⟨hi, by simp [hi']⟩, rfl⟩))
  · exact mem_append_left _ (h.flushing y hy)

theorem store_cases (s : State n ι) (seqNum : ℕ) (cid : ι) : s.store seqNum cid = s ∨
    ∃ i, (s.pool i).active = false ∧
      s.store seqNum cid = { s with pool := update s.pool i ⟨seqNum, cid, true⟩ } := by
  unfold store
  split
  · next i hi => exact .inr ⟨i, by simpa using find?_some hi, rfl⟩
  · exact .inl rfl

theorem Inv.store (h : Inv es s) (hx : ∀ i, (s.pool i).active → (s.pool i).seqNum ≠ x)
    (hle : s.retirePriorTo ≤ x) (cid : ι) : Inv es (s.store x cid) := by
  obtain heq | ⟨i, -, heq⟩ := s.store_cases x cid
  · rwa [heq]
  rw [heq]
  refine ⟨fun j k hj hk hjk => ?_, fun j hj => ?_, h.received, h.removed, h.flushing⟩
  · by_cases hji : j = i <;> by_cases hki : k = i
    · rw [hji, hki]
    · simp only [hji, update_self, update_of_ne hki] at hk hjk
      exact absurd hjk.symm (hx k hk)
    · simp only [hki, update_self, update_of_ne hji] at hj hjk
      exact absurd hjk (hx j hj)
    · simp only [update_of_ne hji, update_of_ne hki] at hj hk hjk
      exact h.unique j k hj hk hjk
  · obtain rfl | hji := eq_or_ne j i
    · simpa using hle
    · simp only [update_of_ne hji] at hj ⊢
      exact h.current j hj

theorem Inv.step (h : Inv es s) (ha : s.Orderly a) (hs : s.step a = some (s', es')) :
    Inv (es ++ es') s' := by
  cases a with
  | frame x r cid sent =>
    obtain ⟨hx, hle, hroom⟩ := ha
    simp only [State.step, handleNewConnectionIdFrame] at hs
    split at hs
    · cases hs
      rwa [append_nil]
    next hrx =>
    cases hs
    split
    · next hr =>
      refine (h.retire hr.le hroom).store (fun i hi => ?_) (not_lt.1 hrx) cid
      obtain ⟨heq, hact, -⟩ := active_retire hi
      rw [heq]
      exact hx i hact
    · next hr =>
      refine .store ⟨h.unique, h.current, fun y r' hy => ?_, fun y hy => ?_,
        fun y hy => mem_append_left _ (h.flushing y hy)⟩ hx hle cid
      · obtain hy | ⟨-, rfl⟩ : .received y r' ∈ es ∨ y = x ∧ r' = r := by simpa using hy
        · exact h.received y r' hy
        · exact not_lt.1 hr
      · simpa using h.removed y (by simpa using hy)
  | flush =>
    obtain ⟨-, rfl, rfl⟩ := by simpa [State.step] using hs
    rw [append_nil]
    exact ⟨h.unique, h.current, h.received, h.removed, fun y hy => by simp at hy⟩
  | flushSend sent =>
    simp only [State.step] at hs
    split at hs
    · split at hs
      · cases hs
        refine ⟨h.unique, h.current, by simpa using h.received, fun y hy => ?_, by simp⟩
        exact (h.removed y (by simpa using hy)).imp_left (mem_append_left _)
      · cases hs
        rw [append_nil]
        exact ⟨h.unique, h.current, h.received, h.removed, by simp⟩
    · cases hs
  | flushDrop =>
    simp only [State.step] at hs
    split at hs
    · next x hx =>
      cases hs
      rw [append_nil]
      refine ⟨h.unique, h.current, h.received, fun y hy => ?_, by simp⟩
      obtain hy | hy := h.removed y hy
      · exact .inl hy
      -- only what the flush has sent leaves the backlog
      dsimp only
      split
      · next hhead =>
        obtain ⟨xs, hxs⟩ := head?_eq_some_iff.1 hhead
        rw [hxs, mem_cons] at hy
        rw [hxs]
        exact hy.imp_left fun hyx : y = x => hyx ▸ h.flushing x hx
      · exact .inr hy
    · cases hs

end State

/-- If frames have new numbers that are not yet to be retired, and the backlog has space: no two
IDs in use have one number, none has a number below a `retire_prior_to` that was received, and
for each that was removed, a frame was sent or will be. -/
theorem peer_cids_retired {pool : Fin n → PeerCid ι}
    (hpool : ∀ i j, (pool i).active → (pool j).active → (pool i).seqNum = (pool j).seqNum → i = j)
    (h : Reaches (endpoint pool) State.Orderly es s) :
    (∀ i j, (s.pool i).active → (s.pool j).active → (s.pool i).seqNum = (s.pool j).seqNum → i = j) ∧
    (∀ i, (s.pool i).active → ∀ x r, .received x r ∈ es → r ≤ (s.pool i).seqNum) ∧
    ∀ x, .removed x ∈ es → .sent x ∈ es ∨ x ∈ s.backlog := by
  have hinv : State.Inv es s := h.invariant ⟨hpool, by simp [endpoint, State.init], by simp, by simp,
    by simp [endpoint, State.init]⟩ fun _ _ _ _ _ hi ha hs => hi.step ha hs
  exact ⟨hinv.unique, fun i hi x r hx => (hinv.received x r hx).trans (hinv.current i hi),
    hinv.removed⟩

def handshake (i : Fin 2) : PeerCid Unit := ⟨0, (), i == 0⟩

theorem peer_cids_retired_flushed : ∃ es s, Reaches (endpoint handshake) State.Orderly es s ∧
    (es = [.received 1 1, .removed 0, .sent 0] ∧ s.backlog = [] ∧ (s.pool 0).seqNum = 1) ∧
    ∀ x, .removed x ∈ es → .sent x ∈ es ∨ x ∈ s.backlog :=
  Reaches.of_exec_and
    [.frame 1 1 () (fun _ => false), .flush, .flushSend true, .flushDrop] (by decide +kernel)
    fun _ _ h => (peer_cids_retired (by decide) h).2.2

/-- A frame that comes twice is stored twice; one that comes late is stored below the greatest
`retire_prior_to`; and a third retirement is one too many for the backlog. -/
theorem peer_cids_fail :
    (∃ es s, Reaches (endpoint handshake) (fun _ _ => True) es s ∧
      ∃ i j, i ≠ j ∧ (s.pool i).active ∧ (s.pool j).active ∧ (s.pool i).seqNum = (s.pool j).seqNum) ∧
    (∃ es s, Reaches (endpoint handshake) (fun _ _ => True) es s ∧
      .received 2 2 ∈ es ∧ ∃ i, (s.pool i).active ∧ (s.pool i).seqNum < 2) ∧
    ∃ es s, Reaches (endpoint handshake) (fun _ _ => True) es s ∧
      .removed 0 ∈ es ∧ .sent 0 ∉ es ∧ 0 ∉ s.backlog := by
  refine ⟨?_, ?_, ?_⟩
  · exact Reaches.of_exec _ _ [.frame 1 1 () fun _ => true, .frame 1 1 () fun _ => true] _
      (by decide +kernel)
  · exact Reaches.of_exec _ _ [.frame 2 2 () fun _ => true, .frame 1 0 () fun _ => true] _
      (by decide +kernel)
  · exact Reaches.of_exec _ _ [.frame 1 1 () fun _ => false, .frame 2 2 () fun _ => false,
      .frame 3 3 () fun _ => false] _ (by decide +kernel)

end ZephyrRtos.Quic
