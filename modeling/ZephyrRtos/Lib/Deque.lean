import Mathlib.Data.List.Induction
import Mathlib.Data.List.Perm.Basic

namespace ZephyrRtos.Lib

open List

/-- An operation with its result. -/
inductive DequeOp (α : Type)
  | pushBack (a : α)
  | pushFront (a : α)
  | popFront (a : α)
  | peek (i : ℕ) (a : Option α)
  | clear
  deriving DecidableEq

variable {α : Type} {cap : ℕ} {op : DequeOp α} {ops : List (DequeOp α)} {l : List α} {a : α}

namespace DequeOp

def pushed : DequeOp α → List α
  | .pushBack a | .pushFront a => [a]
  | _ => []

def popped : DequeOp α → List α
  | .popFront a => [a]
  | _ => []

def run [DecidableEq α] (cap : ℕ) (l : List α) : DequeOp α → Option (List α)
  | .pushBack a => if l.length < cap then some (l ++ [a]) else none
  | .pushFront a => if l.length < cap then some (a :: l) else none
  | .popFront a => if l.head? = some a then some l.tail else none
  | .peek i a => if l[i]? = a then some l else none
  | .clear => some []

end DequeOp

/-- Where the items are, each with the number of the push that brought it. -/
structure Ledger (α : Type) where
  held : List (α × ℕ)
  taken : List (α × ℕ)
  dropped : List (α × ℕ)
  next : ℕ

namespace Ledger

variable {L : Ledger α} {pushed popped : List α}

def items (L : Ledger α) : List α := L.held.map Prod.fst

def book (L : Ledger α) : DequeOp α → Ledger α
  | .pushBack a => { L with held := L.held ++ [(a, L.next)], next := L.next + 1 }
  | .pushFront a => { L with held := (a, L.next) :: L.held, next := L.next + 1 }
  | .popFront _ => { L with held := L.held.tail, taken := L.taken ++ L.held.take 1 }
  | .peek .. => L
  | .clear => { L with held := [], dropped := L.dropped ++ L.held }

def ofOps (ops : List (DequeOp α)) : Ledger α := ops.foldl book ⟨[], [], [], 0⟩

/-- Each pushed item is held, was taken or was dropped, and only one of these, once. -/
structure Accounts (L : Ledger α) (pushed popped : List α) : Prop where
  all : (L.held ++ L.taken ++ L.dropped).Perm pushed.zipIdx
  popped : L.taken.map Prod.fst = popped
  next : L.next = pushed.length

namespace Accounts

theorem push {held : List (α × ℕ)} (h : L.Accounts pushed popped)
    (hp : held.Perm ((a, L.next) :: L.held)) :
    { L with held, next := L.next + 1 }.Accounts (pushed ++ [a]) popped := by
  refine ⟨?_, h.popped, by simp [h.next]⟩
  have hz : (pushed ++ [a]).zipIdx = pushed.zipIdx ++ [(a, L.next)] := by
    simp [zipIdx_append, h.next]
  rw [hz]
  exact ((hp.append_right _).append_right _).trans <| (h.all.cons _).trans
    (perm_append_singleton _ _).symm

theorem pop {x : α × ℕ} {held : List (α × ℕ)} (h : L.Accounts pushed popped)
    (hx : L.held = x :: held) :
    { L with held, taken := L.taken ++ [x] }.Accounts pushed (popped ++ [x.1]) := by
  refine ⟨.trans ?_ h.all, by simp [h.popped], h.next⟩
  rw [hx]
  refine .append_right _ ?_
  rw [← append_assoc]
  exact perm_append_singleton _ _

theorem clear (h : L.Accounts pushed popped) :
    { L with held := [], dropped := L.dropped ++ L.held }.Accounts pushed popped := by
  refine ⟨.trans ?_ h.all, h.popped, h.next⟩
  rw [← append_assoc, append_assoc L.held]
  exact perm_append_comm

theorem book [DecidableEq α] (h : L.Accounts pushed popped)
    (hop : op.run cap L.items = some l) :
    (L.book op).Accounts (pushed ++ op.pushed) (popped ++ op.popped) ∧ (L.book op).items = l := by
  cases op with
  | pushBack a =>
    obtain ⟨-, rfl⟩ := by simpa [DequeOp.run] using hop
    simp only [DequeOp.popped, append_nil]
    exact ⟨h.push (perm_append_singleton _ _), by simp [Ledger.book, items]⟩
  | pushFront a =>
    obtain ⟨-, rfl⟩ := by simpa [DequeOp.run] using hop
    simp only [DequeOp.popped, append_nil]
    exact ⟨h.push .rfl, by simp [Ledger.book, items]⟩
  | popFront a =>
    obtain ⟨hhead, rfl⟩ := by simpa [DequeOp.run] using hop
    cases hheld : L.held with
    | nil => simp [items, hheld] at hhead
    | cons x held =>
      obtain rfl : x.1 = a := by simpa only [items, hheld, map_cons, head?_cons,
        Option.some.injEq] using hhead
      simp only [DequeOp.pushed, append_nil, Ledger.book, hheld]
      exact ⟨h.pop hheld, by simp [items, hheld]⟩
  | peek i a =>
    obtain ⟨-, rfl⟩ := by simpa [DequeOp.run] using hop
    simpa [DequeOp.pushed, DequeOp.popped, Ledger.book] using h
  | clear =>
    obtain rfl := by simpa [DequeOp.run] using hop
    simp only [DequeOp.pushed, DequeOp.popped, append_nil]
    exact ⟨h.clear, rfl⟩

end Accounts

theorem accounts_ofOps [DecidableEq α] (h : ops.foldlM (DequeOp.run cap) [] = some l) :
    (ofOps ops).Accounts (ops.flatMap DequeOp.pushed) (ops.flatMap DequeOp.popped) ∧
      (ofOps ops).items = l := by
  induction ops using reverseRecOn generalizing l with
  | nil =>
    obtain rfl := by simpa using h
    exact ⟨⟨.nil, rfl, rfl⟩, rfl⟩
  | append_singleton ops op ih =>
    rw [foldlM_append, Option.bind_eq_bind, Option.bind_eq_some_iff] at h
    obtain ⟨l₀, h₀, hop⟩ := h
    obtain ⟨hacc, rfl⟩ := ih h₀
    simp only [ofOps, foldl_append, flatMap_append, flatMap_cons, flatMap_nil, append_nil]
    have hop : op.run cap (ofOps ops).items = some l := by simpa using hop
    exact hacc.book hop

end Ledger

end ZephyrRtos.Lib
