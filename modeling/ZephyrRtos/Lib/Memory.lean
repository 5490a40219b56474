import Mathlib.Tactic.Ring

namespace ZephyrRtos.Lib

abbrev Memory := ℕ → UInt8

namespace Memory

def bytes (m : Memory) (a n : ℕ) : Fin n → UInt8 := fun i => m (a + i)

def setBytes (m : Memory) (a : ℕ) {n : ℕ} (data : Fin n → UInt8) : Memory :=
  fun b => if h : a ≤ b ∧ b < a + n then data ⟨b - a, by omega⟩ else m b

def list (m : Memory) (a n : ℕ) : List UInt8 := (List.range n).map fun i => m (a + i)

def paste (m : Memory) (a : ℕ) (src : Memory) (b n : ℕ) : Memory :=
  fun c => if a ≤ c ∧ c < a + n then src (b + (c - a)) else m c

def Agree (m m' : Memory) (lo hi : ℕ) : Prop := ∀ a, lo ≤ a → a < hi → m' a = m a

def AgreeOff (m m' : Memory) (lo hi : ℕ) : Prop := ∀ a, a < lo ∨ hi ≤ a → m' a = m a

variable {m m' m'' : Memory} {a b n k v lo hi : ℕ}

theorem AgreeOff.trans (h : AgreeOff m m' lo hi) (h' : AgreeOff m' m'' lo hi) :
    AgreeOff m m'' lo hi := fun b hb => (h' b hb).trans (h b hb)

theorem AgreeOff.widen (h : AgreeOff m m' lo hi) (h1 : n ≤ lo) (h2 : hi ≤ k) :
    AgreeOff m m' n k := fun b hb => h b (by omega)

theorem AgreeOff.agree (h : AgreeOff m m' lo hi) (hd : b ≤ lo ∨ hi ≤ a) : Agree m m' a b :=
  fun c _ _ => h c (by omega)

theorem bytes_setBytes_self (m : Memory) (a : ℕ) (data : Fin n → UInt8) :
    (m.setBytes a data).bytes a n = data := by
  funext i
  have hi : a ≤ a + i ∧ a + i < a + n := ⟨by omega, by omega⟩
  simp [bytes, setBytes, hi]

theorem bytes_setBytes_of_disjoint (m : Memory) (data : Fin n → UInt8)
    (h : b + k ≤ a ∨ a + n ≤ b) : (m.setBytes a data).bytes b k = m.bytes b k := by
  funext i
  exact dif_neg (by omega)

section List

@[simp] theorem length_list (m : Memory) (a n : ℕ) : (m.list a n).length = n := by simp [list]

@[simp] theorem list_zero (m : Memory) (a : ℕ) : m.list a 0 = [] := rfl

theorem list_add (m : Memory) (a n k : ℕ) : m.list a (n + k) = m.list a n ++ m.list (a + n) k := by
  simp [list, List.range_add, add_assoc]

theorem list_congr (h : Agree m m' a (a + n)) : m'.list a n = m.list a n :=
  List.map_congr_left fun i hi => h _ (by omega) (by have := List.mem_range.1 hi; omega)

theorem list_paste_self (m src : Memory) : (m.paste a src b n).list a n = src.list b n := by
  refine List.map_congr_left fun i hi => ?_
  have hi := List.mem_range.1 hi
  simp [paste, hi]

theorem agreeOff_paste (m src : Memory) : AgreeOff m (m.paste a src b n) a (a + n) :=
  fun c hc => if_neg (by omega)

end List

end Memory

end ZephyrRtos.Lib
