import Mathlib.Data.List.Lemmas
import Mathlib.Data.List.Count
import ZephyrRtos.Lib.Bitmap
import ZephyrRtos.Lib.Run

/-! The key pairs of a WireGuard peer, and the counters it accepts. -/

namespace ZephyrRtos.Wireguard

open List Lib

/-- Key 0 is `PSA_KEY_ID_NULL`. -/
structure Keypair where
  sendingKeyId : ℕ := 0
  receivingKeyId : ℕ := 0
  replayBitmap : BitVec 32 := 0
  replayCounter : ℕ := 0
  localIndex : ℕ := 0
  isReceivingValid : Bool := false
  isValid : Bool := false

def Keypair.keys (k : Keypair) : List ℕ := [k.sendingKeyId, k.receivingKeyId]

def Keypair.clear (k : Keypair) : Keypair :=
  { k with sendingKeyId := 0, receivingKeyId := 0, isReceivingValid := false, isValid := false }

def Keypair.wipe (k : Keypair) : Keypair := { k.clear with replayBitmap := 0, replayCounter := 0 }

/-- `store` has the keys that PSA holds. -/
structure Peer where
  prev : Keypair := {}
  current : Keypair := {}
  next : Keypair := {}
  store : List ℕ := []

inductive Slot
  | prev
  | current
  | next
  deriving DecidableEq

inductive Event
  | derived (sendingKeyId receivingKeyId : ℕ)
  | accepted (receivingKeyId counter : ℕ)
  | destroyed (keyIds : List ℕ)

/-- `keys` is what `wg_psa_derive_session_keys` gives, and `expired` is whether the pair is too old
or has been used for too many messages. Any pair may expire. -/
inductive Action
  | session (isInitiator : Bool) (localIndex : ℕ) (keys : Option (ℕ × ℕ))
  | data (index counter : ℕ) (expired : Bool)
  | expire (x : Slot)

/-- The window after packet `seq`, if that one is new. -/
def wgReplayCheck (bitmap : BitVec 32) (counter seq : ℕ) : Option (BitVec 32 × ℕ) :=
  let seq := (seq + 1) % 2 ^ 64
  if seq = 0 then none
  else if counter < seq then
    some (if seq - counter < 32 then bitmap <<< (seq - counter) ||| bit 32 0 else bit 32 0, seq)
  else if counter - seq < 32 then
    if bitmap.getLsbD (counter - seq) then none
    else some (bitmap ||| bit 32 (counter - seq), counter)
  else none

namespace Peer

def get (p : Peer) : Slot → Keypair
  | .prev => p.prev
  | .current => p.current
  | .next => p.next

def set (p : Peer) (x : Slot) (k : Keypair) : Peer :=
  match x with
  | .prev => { p with prev := k }
  | .current => { p with current := k }
  | .next => { p with next := k }

def keypairDestroy (p : Peer) (x : Slot) : Peer × List Event :=
  let k := p.get x
  if k.isValid then
    ({ p.set x k.wipe with store := p.store.diff k.keys }, [.destroyed k.keys])
  else (p, [])

def move (p : Peer) (x y : Slot) : Peer := (p.set x (p.get x).clear).set y (p.get x)

def keypairUpdate (p : Peer) (x : Slot) : Peer × List Event :=
  if x = .next then
    let (p, es) := p.keypairDestroy .prev
    ((p.move .current .prev).move .next .current, es)
  else (p, [])

def addNewKeypair (p : Peer) (isInitiator : Bool) (k : Keypair) : Peer × List Event :=
  let (p, es) := p.keypairDestroy .prev
  if isInitiator then
    ((if p.next.isValid then p.move .next .prev else p.move .current .prev).set .current k, es)
  else (p.set .next k, es)

def wgStartSession (p : Peer) (isInitiator : Bool) (localIndex sendingKeyId receivingKeyId : ℕ) :
    Peer × List Event :=
  let (p, es) := { p with store := sendingKeyId :: receivingKeyId :: p.store }.addNewKeypair isInitiator
    ⟨sendingKeyId, receivingKeyId, 0, 0, localIndex, true, true⟩
  (p, .derived sendingKeyId receivingKeyId :: es)

def getPeerKeypairForIndex (p : Peer) (index : ℕ) : Option Slot :=
  [Slot.current, .next, .prev].find? fun x => (p.get x).isValid && (p.get x).localIndex == index

def wgProcessDataMessage (p : Peer) (index counter : ℕ) (expired : Bool) : Peer × List Event :=
  match p.getPeerKeypairForIndex index with
  | none => (p, [])
  | some x =>
    let k := p.get x
    if k.isReceivingValid && !expired then
      match wgReplayCheck k.replayBitmap k.replayCounter counter with
      | none => (p, [])
      | some (replayBitmap, replayCounter) =>
        let (p, es) := (p.set x { k with replayBitmap, replayCounter }).keypairUpdate x
        (p, .accepted k.receivingKeyId counter :: es)
    else p.keypairDestroy x

def step (p : Peer) : Action → Option (Peer × List Event)
  | .session _ _ none => some (p, [])
  | .session isInitiator localIndex (some (s, r)) =>
    -- the keys are new ones
    if (0 :: s :: r :: p.store).Nodup then some (p.wgStartSession isInitiator localIndex s r) else none
  | .data index counter expired =>
    if counter < 2 ^ 64 then some (p.wgProcessDataMessage index counter expired) else none
  | .expire x => some (p.keypairDestroy x)

end Peer

def wireguard : System Peer Action Event where
  init := {}
  step := Peer.step

/-- The counters accepted with a key since it was derived. -/
def accepted (key : ℕ) (es : List Event) : List ℕ :=
  es.foldl (fun l e => match e with
    | .derived s r => if key = s ∨ key = r then [] else l
    | .accepted r n => if key = r then n :: l else l
    | .destroyed _ => l) []

/-- How often a key was destroyed since it was derived. -/
def destroyed (key : ℕ) (es : List Event) : ℕ :=
  es.foldl (fun n e => match e with
    | .derived s r => if key = s ∨ key = r then 0 else n
    | .accepted .. => n
    | .destroyed l => n + l.count key) 0

structure Window (bitmap : BitVec 32) (counter : ℕ) (l : List ℕ) : Prop where
  lt : ∀ m ∈ l, m < counter
  last : ∀ m, m + 1 = counter → m ∈ l
  bits : ∀ i m, i < 32 → m + 1 + i = counter → (bitmap.getLsbD i = true ↔ m ∈ l)

theorem Window.check (h : Window bitmap counter l) (hn : n < 2 ^ 64) :
    match wgReplayCheck bitmap counter n with
    | none => n + 1 = 2 ^ 64 ∨ n ∈ l ∨ ∃ m ∈ l, n + 32 ≤ m
    | some (bitmap', counter') => n ∉ l ∧ Window bitmap' counter' (n :: l) := by
  obtain hmax | hmax : n + 1 = 2 ^ 64 ∨ n + 1 < 2 ^ 64 := by omega
  · simp [wgReplayCheck, hmax]
  simp only [wgReplayCheck, Nat.mod_eq_of_lt hmax]
  rw [if_neg (Nat.succ_ne_zero n)]
  by_cases hnew : counter < n + 1
  · rw [if_pos hnew]
    have hold : ∀ m, counter ≤ m → m ∉ l := fun m hm hmem => absurd (h.lt m hmem) (by omega)
    refine ⟨hold n (by omega), forall_mem_cons.2 ⟨by omega, fun m hm => ?_⟩, fun m hm => ?_,
      fun i m hi hm => ?_⟩
    · have := h.lt m hm
      omega
    · simp [Nat.succ.inj hm]
    rw [mem_cons, show m = n ↔ i = 0 by omega]
    split
    · rw [getLsbD_or_bit _ (by omega), BitVec.getLsbD_shiftLeft]
      by_cases hsh : i < n + 1 - counter
      · simp [hsh, hold m (by omega)]
      · have hbit := h.bits (i - (n + 1 - counter)) m (by omega) (by omega)
        simp [hi, hsh, hbit, or_comm]
    · simp [getLsbD_bit, hold m (by omega)]
  rw [if_neg hnew]
  by_cases hdiff : counter - (n + 1) < 32
  · rw [if_pos hdiff]
    have hbit := h.bits _ n hdiff (by omega)
    by_cases hmem : n ∈ l
    · rw [if_pos (hbit.2 hmem)]
      exact .inr (.inl hmem)
    · rw [if_neg (mt hbit.1 hmem)]
      refine ⟨hmem, forall_mem_cons.2 ⟨by omega, h.lt⟩, fun m hm => mem_cons_of_mem _ (h.last m hm),
        fun i m hi hm => ?_⟩
      rw [getLsbD_or_bit _ hdiff, Bool.or_eq_true, decide_eq_true_eq, h.bits i m hi hm, mem_cons,
        or_comm, show i = counter - (n + 1) ↔ m = n by omega]
  · rw [if_neg hdiff]
    exact .inr (.inr ⟨counter - 1, h.last _ (by omega), by omega⟩)

def Event.Derives (key : ℕ) : Event → Prop
  | .derived s r => key = s ∨ key = r
  | _ => False

instance : ∀ e, Decidable (Event.Derives key e)
  | .derived .. => inferInstanceAs (Decidable (_ ∨ _))
  | .accepted .. | .destroyed _ => inferInstanceAs (Decidable False)

/-- In how many places of the three pairs a key is. -/
def Peer.held (p : Peer) (key : ℕ) : ℕ :=
  (p.prev.keys ++ p.current.keys ++ p.next.keys).count key

def Keypair.Ok (es : List Event) (k : Keypair) : Prop :=
  if k.isValid then
    k.receivingKeyId ≠ 0 ∧ Window k.replayBitmap k.replayCounter (accepted k.receivingKeyId es)
  else k.keys = [0, 0]

/-- The keys of `l` are on their way to a pair. If `full`, then none is lost. -/
structure Inv (full : Prop) (es : List Event) (p : Peer) (l : List ℕ) : Prop where
  ok : ∀ x, (p.get x).Ok es
  le_one : ∀ i, p.store.count i ≤ 1
  held : ∀ i, i ≠ 0 → p.held i + l.count i ≤ p.store.count i ∧
    (full → p.store.count i ≤ p.held i + l.count i)
  once : ∀ i, (accepted i es).Nodup
  log : ∀ i, (∃ e ∈ es, e.Derives i) → i ≠ 0 ∧ p.store.count i + destroyed i es = 1

variable {p p' : Peer} {es : List Event} {k : Keypair} {l ks : List ℕ} {x y : Slot} {full : Prop}

@[simp] theorem accepted_destroyed : accepted i (es ++ [.destroyed l]) = accepted i es := by
  simp [accepted]

@[simp] theorem get_set : (p.set x k).get y = if y = x then k else p.get y := by
  cases x <;> cases y <;> rfl

@[simp] theorem store_set : (p.set x k).store = p.store := by cases x <;> rfl

theorem held_set : (p.set x k).held i + (p.get x).keys.count i = p.held i + k.keys.count i := by
  cases x <;> simp only [Peer.held, Peer.set, Peer.get, count_append] <;> omega

/-- A new pair does not replace one that is still valid. -/
def Peer.Free (p : Peer) : Action → Prop
  | .session true _ (some _) => p.next.isValid → p.current.isValid = false
  | .session false _ (some _) => p.next.isValid = false
  | _ => True

namespace Inv

theorem take (h : Inv full es p l) (hk : k.isValid = false) (hkeys : k.keys = [0, 0]) (x : Slot) :
    Inv full es (p.set x k) ((p.get x).keys ++ l) := by
  refine ⟨fun y => ?_, by simpa using h.le_one, fun i hi => ?_, h.once, by simpa using h.log⟩
  · rw [get_set]
    split
    · simp [Keypair.Ok, hk, hkeys]
    · exact h.ok y
  · have hset : (p.set x k).held i + (p.get x).keys.count i = p.held i := by
      rw [held_set]
      simp [hkeys, Ne.symm hi]
    rw [count_append, ← add_assoc, hset, store_set]
    exact h.held i hi

theorem put (h : Inv full es p (k.keys ++ l)) (hk : k.Ok es) (hx : full → (p.get x).isValid = false) :
    Inv full es (p.set x k) l := by
  refine ⟨fun y => ?_, by simpa using h.le_one, fun i hi => ?_, h.once, by simpa using h.log⟩
  · rw [get_set]
    split
    · exact hk
    · exact h.ok y
  · obtain ⟨hle, hge⟩ := h.held i hi
    have hset : (p.set x k).held i + _ = _ := held_set
    rw [count_append] at hle hge
    rw [store_set]
    refine ⟨by omega, fun hfull => ?_⟩
    have hempty := h.ok x
    rw [Keypair.Ok, hx hfull, if_neg Bool.false_ne_true] at hempty
    have hzero : (p.get x).keys.count i = 0 := by simp [hempty, hi.symm]
    have := hge hfull
    omega

theorem move (h : Inv full es p l) (x y : Slot) (hxy : y ≠ x) (hy : full → (p.get y).isValid = false) :
    Inv full es (p.move x y) l :=
  (h.take rfl rfl x).put (h.ok x) (by simpa [hxy] using hy)

theorem destroy (h : Inv full es p (ks ++ l)) :
    Inv full (es ++ [.destroyed ks]) { p with store := p.store.diff ks } l := by
  have hheld : ∀ i, Peer.held { p with store := p.store.diff ks } i = p.held i := fun _ => rfl
  refine ⟨fun y => ?_, fun i => ?_, fun i hi => ?_, fun i => ?_, fun i hi => ?_⟩
  · have hy := h.ok y
    rwa [Keypair.Ok, ← accepted_destroyed] at hy
  · rw [count_diff]
    exact (Nat.sub_le ..).trans (h.le_one i)
  · obtain ⟨hle, hge⟩ := h.held i hi
    rw [count_append] at hle hge
    rw [count_diff, hheld]
    exact ⟨by omega, fun hfull => by have := hge hfull; omega⟩
  · rw [accepted_destroyed]
    exact h.once i
  · obtain ⟨hi, hlog⟩ := h.log i (by simpa [Event.Derives] using hi)
    obtain ⟨hle, -⟩ := h.held i hi
    have hdes : destroyed i (es ++ [.destroyed ks]) = destroyed i es + ks.count i := by
      simp [destroyed]
    rw [count_append] at hle
    rw [count_diff]
    exact ⟨hi, by omega⟩

theorem keypairDestroy (h : Inv full es p l) (x : Slot) :
    Inv full (es ++ (p.keypairDestroy x).2) (p.keypairDestroy x).1 l := by
  unfold Peer.keypairDestroy
  simp only
  split
  · simpa using (h.take rfl rfl x).destroy
  · simpa using h

theorem valid (h : Inv full es p l) (hx : (p.get x).isValid) : (p.get x).receivingKeyId ≠ 0 ∧
    Window (p.get x).replayBitmap (p.get x).replayCounter (accepted (p.get x).receivingKeyId es) := by
  have hok := h.ok x
  rwa [Keypair.Ok, if_pos hx] at hok

theorem unique (h : Inv full es p l) (hx : (p.get x).isValid)
    (heq : (p.get y).receivingKeyId = (p.get x).receivingKeyId) : y = x := by
  have := h.held _ (h.valid hx).1
  have := h.le_one (p.get x).receivingKeyId
  by_contra hne
  cases x <;> cases y <;> simp_all [Peer.held, Peer.get, Keypair.keys, count_cons] <;> omega

theorem mem_store (h : Inv full es p l) (hx : (p.get x).isValid) :
    (p.get x).receivingKeyId ∈ p.store := by
  have hle := h.held _ (h.valid hx).1
  have hpos : 0 < p.held (p.get x).receivingKeyId :=
    count_pos_iff.2 (by cases x <;> simp [Peer.get, Keypair.keys])
  exact count_pos_iff.1 (by omega)

theorem accept (h : Inv full es p l) (hx : (p.get x).isValid) (hn : n < 2 ^ 64)
    (hcheck : wgReplayCheck (p.get x).replayBitmap (p.get x).replayCounter n =
      some (replayBitmap, replayCounter)) :
    Inv full (es ++ [.accepted (p.get x).receivingKeyId n])
      (p.set x { p.get x with replayBitmap, replayCounter }) l := by
  have hnew := (h.valid hx).2.check hn
  rw [hcheck] at hnew
  have hacc : ∀ i, accepted i (es ++ [.accepted (p.get x).receivingKeyId n]) =
      if i = (p.get x).receivingKeyId then n :: accepted i es else accepted i es := by
    simp [accepted]
  refine ⟨fun y => ?_, by simpa using h.le_one, fun i hi => ?_, fun i => ?_, fun i hi => ?_⟩
  · rw [get_set]
    split
    · rw [Keypair.Ok, if_pos hx, hacc, if_pos rfl]
      exact ⟨(h.valid hx).1, hnew.2⟩
    · next hne =>
      have hy := h.ok y
      rw [Keypair.Ok] at hy ⊢
      rwa [hacc, if_neg fun heq => hne (h.unique hx heq)]
  · have hset : (p.set x { p.get x with replayBitmap, replayCounter }).held i = p.held i :=
      add_right_cancel held_set
    rw [hset, store_set]
    exact h.held i hi
  · rw [hacc]
    split
    · next heq => exact nodup_cons.2 ⟨heq ▸ hnew.1, h.once i⟩
    · exact h.once i
  · have := h.log i (by simpa [Event.Derives] using hi)
    simpa [destroyed] using this

theorem derive (h : Inv full es p []) (hnew : (0 :: s :: r :: p.store).Nodup) :
    Inv full (es ++ [.derived s r]) { p with store := s :: r :: p.store } [s, r] := by
  have hle := nodup_iff_count.1 hnew
  have hacc : ∀ i, accepted i (es ++ [.derived s r]) =
      if i = s ∨ i = r then [] else accepted i es := by simp [accepted]
  refine ⟨fun y => ?_, fun i => ?_, fun i hi => ?_, fun i => ?_, fun i hi => ?_⟩
  · have hy := h.ok y
    change (p.get y).Ok _
    rw [Keypair.Ok] at hy ⊢
    split
    · next hvalid =>
      have hmem := h.mem_store hvalid
      rw [hacc, if_neg (by rintro (heq | heq) <;> simp_all)]
      exact h.valid hvalid
    · next hvalid => rwa [if_neg hvalid] at hy
  · have := hle i
    simp only [count_cons] at this ⊢
    omega
  · obtain ⟨hle, hge⟩ := h.held i hi
    simp only [count_cons, Peer.held] at hle hge ⊢
    exact ⟨by omega, fun hfull => by have := hge hfull; omega⟩
  · rw [hacc]
    split
    · exact nodup_nil
    · exact h.once i
  · have hdes : destroyed i (es ++ [.derived s r]) = if i = s ∨ i = r then 0 else destroyed i es := by
      simp [destroyed]
    rw [hdes]
    split
    · next heq =>
      have := hle i
      have hmem : i ∈ s :: r :: p.store := by obtain rfl | rfl := heq <;> simp
      refine ⟨fun h0 => by simp_all, ?_⟩
      have := count_pos_iff.2 hmem
      simp only [count_cons] at *
      omega
    · next hne =>
      obtain ⟨h0, hlog⟩ := h.log i (by simpa [Event.Derives, hne] using hi)
      rw [not_or] at hne
      rw [count_cons_of_ne (.symm hne.1), count_cons_of_ne (.symm hne.2)]
      exact ⟨h0, hlog⟩

end Inv

theorem accepted_destroy : accepted i (es ++ (p.keypairDestroy x).2) = accepted i es := by
  unfold Peer.keypairDestroy
  simp only
  split <;> simp

theorem destroy_prev (p : Peer) : (p.keypairDestroy .prev).1.prev.isValid = false ∧
    (p.keypairDestroy .prev).1.current = p.current ∧ (p.keypairDestroy .prev).1.next = p.next := by
  unfold Peer.keypairDestroy
  simp only
  split
  · exact ⟨rfl, rfl, rfl⟩
  · next h => exact ⟨Bool.eq_false_iff.2 h, rfl, rfl⟩

namespace Inv

theorem keypairUpdate (h : Inv full es p l) (x : Slot) :
    Inv full (es ++ (p.keypairUpdate x).2) (p.keypairUpdate x).1 l := by
  unfold Peer.keypairUpdate
  split
  · exact ((h.keypairDestroy .prev).move .current .prev (by decide)
      fun _ => (destroy_prev p).1).move .next .current (by decide) fun _ => rfl
  · simpa using h

theorem addNewKeypair (h : Inv full es p k.keys) (hk : k.Ok es) (i : Bool)
    (hfree : full → p.Free (.session i n (some q))) :
    Inv full (es ++ (p.addNewKeypair i k).2) (p.addNewKeypair i k).1 [] := by
  obtain ⟨hprev, hcurrent, hnext⟩ := destroy_prev p
  rw [Keypair.Ok, ← accepted_destroy] at hk
  have h := h.keypairDestroy .prev
  unfold Peer.addNewKeypair
  cases i with
  | true =>
    simp only [if_true]
    split
    · next hvalid =>
      refine (h.move .next .prev (by decide) fun _ => hprev).put hk fun hfull => ?_
      exact (congrArg Keypair.isValid hcurrent).trans (hfree hfull (hnext ▸ hvalid))
    · exact (h.move .current .prev (by decide) fun _ => hprev).put hk fun _ => rfl
  | false =>
    exact h.put (x := .next) hk fun hfull => (congrArg Keypair.isValid hnext).trans (hfree hfull)

theorem wgStartSession (h : Inv full es p []) (hnew : (0 :: s :: r :: p.store).Nodup) (i : Bool)
    (n : ℕ) (hfree : full → p.Free (.session i n (some q))) :
    Inv full (es ++ (p.wgStartSession i n s r).2) (p.wgStartSession i n s r).1 [] := by
  have hk : Keypair.Ok (es ++ [.derived s r]) ⟨s, r, 0, 0, n, true, true⟩ := by
    have hacc : accepted r (es ++ [.derived s r]) = [] := by simp [accepted]
    rw [Keypair.Ok, hacc]
    exact ⟨by rintro rfl; simp at hnew, by simp, by simp, by simp⟩
  have := (h.derive hnew).addNewKeypair hk i (n := n) (q := (s, r)) (by cases i <;> exact hfree)
  rwa [append_assoc] at this

theorem wgProcessDataMessage (h : Inv full es p l) (hn : n < 2 ^ 64) (index : ℕ) (expired : Bool) :
    Inv full (es ++ (p.wgProcessDataMessage index n expired).2)
      (p.wgProcessDataMessage index n expired).1 l := by
  unfold Peer.wgProcessDataMessage
  split
  · simpa using h
  next x hx =>
  simp only
  split
  case isFalse => exact h.keypairDestroy x
  split
  · simpa using h
  · next hcheck =>
    have hvalid : (p.get x).isValid := by
      have := find?_some hx
      simp_all
    have := (h.accept hvalid hn hcheck).keypairUpdate x
    rwa [append_assoc] at this

theorem step (h : Inv full es p []) (hfree : full → p.Free a) (hs : p.step a = some (p', es')) :
    Inv full (es ++ es') p' [] := by
  cases a with
  | session i n keys =>
    obtain - | ⟨s, r⟩ := keys
    · obtain ⟨rfl, rfl⟩ : p = p' ∧ [] = es' := by simpa [Peer.step] using hs
      simpa using h
    · obtain ⟨hnew, heq⟩ := Option.ite_none_right_eq_some.1 hs
      have := h.wgStartSession hnew i n hfree
      rwa [Option.some.inj heq] at this
  | data index n expired =>
    obtain ⟨hn, heq⟩ := Option.ite_none_right_eq_some.1 hs
    have := h.wgProcessDataMessage hn index expired
    rwa [Option.some.inj heq] at this
  | expire x =>
    have := h.keypairDestroy x
    rwa [Option.some.inj hs] at this

end Inv

theorem inv_of_reaches (h : Reaches wireguard ok es p) (hok : ∀ p a, ok p a → full → p.Free a) :
    Inv full es p [] := by
  refine h.invariant (I := fun es p => Inv full es p []) ?_ fun _ _ _ _ _ h ha hs => h.step (hok _ _ ha) hs
  refine ⟨fun x => by cases x <;> rfl, ?_, fun i hi => ?_, fun i => nodup_nil, ?_⟩
  · simp [wireguard]
  · simp [wireguard, Peer.held, Keypair.keys, hi.symm]
  · simp

/-- Each counter is accepted once, and so is one that is new and less than 32 behind the last. -/
theorem wg_anti_replay (h : Reaches wireguard (fun _ _ => True) es p) :
    (∀ key, (accepted key es).Nodup) ∧ ∀ x, (p.get x).isValid → ∀ n, n + 1 < 2 ^ 64 →
      n ∉ accepted (p.get x).receivingKeyId es →
      (∀ m ∈ accepted (p.get x).receivingKeyId es, m < n + 32) →
      (wgReplayCheck (p.get x).replayBitmap (p.get x).replayCounter n).isSome := by
  have hinv : Inv False es p [] := inv_of_reaches h (by simp)
  refine ⟨hinv.once, fun x hx n hn hnew hlast => ?_⟩
  have hcheck := (hinv.valid hx).2.check (n := n) (by omega)
  split at hcheck
  · obtain hmax | hmem | ⟨m, hm, hle⟩ := hcheck
    · omega
    · exact absurd hmem hnew
    · exact absurd (hlast m hm) (by omega)
  · next heq => rw [heq]; rfl

theorem wg_anti_replay_ten : ∃ es p, Reaches wireguard (fun _ _ => True) es p ∧
    accepted 2 es = [9, 40, 10] ∧ ∀ key, (accepted key es).Nodup :=
  Reaches.of_exec_and [.session false 1 (some (1, 2)), .data 1 10 false, .data 1 40 false,
    .data 1 8 false, .data 1 9 false, .data 1 10 false] (by decide +kernel)
    fun _ _ h => (wg_anti_replay h).1

/-- No key is held or destroyed twice, and none is lost if new pairs do not replace valid ones. -/
theorem wg_keys_owned (es : List Event) (p : Peer) (key : ℕ) :
    (Reaches wireguard (fun _ _ => True) es p → (∃ e ∈ es, e.Derives key) →
      p.held key + destroyed key es ≤ 1) ∧
    (Reaches wireguard Peer.Free es p → (∃ e ∈ es, e.Derives key) →
      p.held key + destroyed key es = 1) := by
  refine ⟨fun h hkey => ?_, fun h hkey => ?_⟩
  · have hinv : Inv False es p [] := inv_of_reaches h (by simp)
    obtain ⟨h0, hlog⟩ := hinv.log key hkey
    have := hinv.held key h0
    omega
  · have hinv : Inv True es p [] := inv_of_reaches h (fun _ _ ha _ => ha)
    obtain ⟨h0, hlog⟩ := hinv.log key hkey
    have := hinv.held key h0
    simp only [count_nil, true_implies] at this
    omega

/-- A second handshake is answered before the peer has used the keys of the first: those are lost. So
are the current ones if a handshake of our own ends then. -/
theorem wg_keys_lost :
    (∃ es p, Reaches wireguard (fun _ _ => True) es p ∧ (∃ e ∈ es, e.Derives 1) ∧ p.held 1 = 0 ∧
      destroyed 1 es = 0 ∧ p.next.receivingKeyId = 4) ∧
    ∃ es p, Reaches wireguard (fun _ _ => True) es p ∧ (∃ e ∈ es, e.Derives 1) ∧ p.held 1 = 0 ∧
      destroyed 1 es = 0 ∧ p.current.receivingKeyId = 6 := by
  constructor
  · exact Reaches.of_exec _ _ [.session false 1 (some (1, 2)), .session false 2 (some (3, 4))] _
      (by decide +kernel)
  · exact Reaches.of_exec _ _ [.session true 1 (some (1, 2)), .session false 2 (some (3, 4)),
      .session true 3 (some (5, 6))] _ (by decide +kernel)

end ZephyrRtos.Wireguard
