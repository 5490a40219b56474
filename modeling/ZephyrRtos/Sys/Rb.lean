import ZephyrRtos.Lib.RbTree

/-! `lib/utils/rb.c`. -/

namespace ZephyrRtos.Sys

open Function Lib

/-- What ends a call: a null pointer that is followed, an index outside the path array, or
a loop that does not end. -/
inductive RbFault
  | null
  | bounds
  | endless
  deriving DecidableEq

/-- The `struct rbnode` of every node.  The colour is the low bit of `children[0]`, which
`set_child` keeps and `get_child` masks. -/
structure Rbnodes (α : Type) where
  child : α → Side → Option α
  color : α → RbColor

/-- A path array, with `none` where it is null or was never written. -/
structure RbStack (α : Type) where
  size : ℕ
  slot : ℕ → Option α

/-- `struct rbtree` without `lessthan_fn`, and the nodes. -/
structure Rbtree (α : Type) where
  root : Option α
  maxDepth : ℕ
  nodes : Rbnodes α

variable {α : Type} [DecidableEq α]

def Rbnodes.setChild (m : Rbnodes α) (n : α) (side : Side) (val : Option α) : Rbnodes α :=
  { m with child := fun x s => if x = n ∧ s = side then val else m.child x s }

def Rbnodes.setColor (m : Rbnodes α) (n : α) (color : RbColor) : Rbnodes α :=
  { m with color := update m.color n color }

def deref (p : Option α) : Except RbFault α :=
  match p with
  | some x => .ok x
  | none => .error .null

def RbStack.get (st : RbStack α) (i : ℕ) : Except RbFault α :=
  if i < st.size then deref (st.slot i) else .error .bounds

def RbStack.set (st : RbStack α) (i : ℕ) (p : Option α) : Except RbFault (RbStack α) :=
  if i < st.size then .ok { st with slot := update st.slot i p } else .error .bounds

/-- `struct rbnode *stack[tree->max_depth + 1]`. -/
def Rbtree.stack (t : Rbtree α) : RbStack α := ⟨t.maxDepth + 1, fun _ => none⟩

section

variable (lessthan : α → α → Bool)

def findAndStackLoop (m : Rbnodes α) (node : α) : ℕ → RbStack α → ℕ → Except RbFault (RbStack α × ℕ)
  | 0, _, _ => .error .bounds
  | left + 1, stack, sz => do
    let top ← stack.get (sz - 1)
    if top = node then return (stack, sz)
    match m.child top (if lessthan node top then .left else .right) with
    | some ch => findAndStackLoop m node left (← stack.set sz (some ch)) (sz + 1)
    | none => return (stack, sz)

def findAndStack (t : Rbtree α) (node : α) (stack : RbStack α) : Except RbFault (RbStack α × ℕ) := do
  findAndStackLoop lessthan t.nodes node stack.size (← stack.set 0 t.root) 1

end

/-- The loop of `z_rb_get_minmax`. -/
def descend (m : Rbnodes α) (side : Side) : ℕ → α → Except RbFault α
  | 0, _ => .error .endless
  | fuel + 1, n =>
    match m.child n side with
    | some ch => descend m side fuel ch
    | none => .ok n

def zRbGetMinmax (fuel : ℕ) (t : Rbtree α) (side : Side) : Except RbFault (Option α) :=
  match t.root with
  | some n => some <$> descend t.nodes side fuel n
  | none => .ok none

def getSide (m : Rbnodes α) (parent child : α) : Side :=
  if m.child parent .right = some child then .right else .left

def rotate (m : Rbnodes α) (stack : RbStack α) (stacksz : ℕ) :
    Except RbFault (Rbnodes α × RbStack α) := do
  let parent ← stack.get (stacksz - 2)
  let child ← stack.get (stacksz - 1)
  let side := getSide m parent child
  let a := m.child child side
  let b := m.child child side.other
  let m ← if 3 ≤ stacksz then do
      let grandparent ← stack.get (stacksz - 3)
      pure (m.setChild grandparent (getSide m grandparent parent) (some child))
    else pure m
  let m := m.setChild child side a
  let m := m.setChild child side.other (some parent)
  let m := m.setChild parent side b
  let stack ← stack.set (stacksz - 2) (some child)
  let stack ← stack.set (stacksz - 1) (some parent)
  return (m, stack)

def redChild (m : Rbnodes α) (p : Option α) : Bool :=
  match p with
  | some x => m.color x = .red
  | none => false

/-- On a stack of `k + 3` nodes. -/
def fixByRotation (m : Rbnodes α) (stack : RbStack α) (k : ℕ) (parent node : α) (side : Side) :
    Except RbFault (Rbnodes α × RbStack α) := do
  let (m, stack) ← if getSide m parent node ≠ side then rotate m stack (k + 3)
    else pure (m, stack)
  let (m, stack) ← rotate m stack (k + 2)
  let m := m.setColor (← stack.get k) .black
  let m := m.setColor (← stack.get (k + 1)) .red
  return (m, stack)

def fixExtraRed : ℕ → Rbnodes α → RbStack α → Except RbFault (Rbnodes α × RbStack α)
  | k + 3, m, stack => do
    let node ← stack.get (k + 2)
    let parent ← stack.get (k + 1)
    if m.color parent = .black then return (m, stack)
    let grandparent ← stack.get k
    let side := getSide m grandparent parent
    match m.child grandparent side.other with
    | some aunt =>
      if m.color aunt = .red then
        fixExtraRed (k + 1)
          (((m.setColor grandparent .red).setColor parent .black).setColor aunt .black) stack
      else fixByRotation m stack k parent node side
    | none => fixByRotation m stack k parent node side
  | 2, m, stack => do
    let parent ← stack.get 0
    -- a red root has no grandparent: `stack[-1]`
    if m.color parent = .black then return (m, stack) else .error .bounds
  | _, m, stack => do return (m.setColor (← stack.get 0) .black, stack)

def rbInsert (lessthan : α → α → Bool) (t : Rbtree α) (node : α) : Except RbFault (Rbtree α) := do
  let m := (t.nodes.setChild node .left none).setChild node .right none
  match t.root with
  | none => return ⟨some node, 1, m.setColor node .black⟩
  | some _ =>
    let (stack, stacksz) ← findAndStack lessthan { t with nodes := m } node t.stack
    let parent ← stack.get (stacksz - 1)
    let m := m.setChild parent (if lessthan node parent then .left else .right) (some node)
    let m := m.setColor node .red
    let stack ← stack.set stacksz (some node)
    let (m, stack) ← fixExtraRed (stacksz + 1) m stack
    return ⟨stack.slot 0, max t.maxDepth (stacksz + 1), m⟩

/-- The sibling of the node at the top is red: it goes up, and that node down by one. -/
def lowerRedSibling (m : Rbnodes α) (stack : RbStack α) (stacksz : ℕ) (n parent sib : α) :
    Except RbFault (Rbnodes α × RbStack α) := do
  let stack ← stack.set (stacksz - 1) (some sib)
  let (m, stack) ← rotate m stack stacksz
  let m := (m.setColor parent .red).setColor sib .black
  let stack ← stack.set stacksz (some n)
  return (m, stack)

def turnSibling (m : Rbnodes α) (stack : RbStack α) (stacksz : ℕ) (n sib : α) (side : Side) :
    Except RbFault (Rbnodes α × RbStack α × α) := do
  let inner ← deref (m.child sib side)
  let stack ← stack.set (stacksz - 1) (some sib)
  let stack ← stack.set stacksz (some inner)
  let (m, stack) ← rotate m stack (stacksz + 1)
  let m := (m.setColor sib .red).setColor inner .black
  let sib ← stack.get (stacksz - 1)
  let stack ← stack.set (stacksz - 1) (some n)
  return (m, stack, sib)

/-- The outer child of the sibling is red and makes up for the missing black. -/
def raiseSibling (nullNode : α) (m : Rbnodes α) (stack : RbStack α) (stacksz : ℕ)
    (n parent sib : α) (side : Side) : Except RbFault (Rbnodes α × RbStack α) := do
  let outer ← deref (m.child sib side.other)
  let m := ((m.setColor sib (m.color parent)).setColor parent .black).setColor outer .black
  let stack ← stack.set (stacksz - 1) (some sib)
  let (m, stack) ← rotate m stack stacksz
  return (if n = nullNode then m.setChild parent side none else m, stack)

def borrowRed (nullNode : α) (m : Rbnodes α) (stack : RbStack α) (stacksz : ℕ) (n parent sib : α)
    (side : Side) : Except RbFault (Rbnodes α × RbStack α) :=
  if redChild m (m.child sib side.other) then raiseSibling nullNode m stack stacksz n parent sib side
  else do
    let (m, stack, sib) ← turnSibling m stack stacksz n sib side
    raiseSibling nullNode m stack stacksz n parent sib side

/-- A turn of the loop once the sibling is black; the flag says that the parent's subtree
is the one that misses a black now. -/
def settleBlack (nullNode : α) (m : Rbnodes α) (stack : RbStack α) (stacksz : ℕ) (n : α)
    (side : Side) : Except RbFault (Rbnodes α × RbStack α × Bool) := do
  let parent ← stack.get (stacksz - 2)
  let sib ← deref (m.child parent side.other)
  if redChild m (m.child sib .left) || redChild m (m.child sib .right) then
    let (m, stack) ← borrowRed nullNode m stack stacksz n parent sib side
    return (m, stack, false)
  else
    let m := if n = nullNode then m.setChild parent side none else m
    let m := m.setColor sib .red
    if m.color parent = .black then return (m, stack, true)
    else return (m.setColor parent .black, stack, false)

def fixMissingBlack (nullNode : α) :
    ℕ → Rbnodes α → RbStack α → ℕ → Except RbFault (Rbnodes α × RbStack α)
  | 0, _, _, _ => .error .endless
  | fuel + 1, m, stack, stacksz => do
    if stacksz ≤ 1 then return (m, stack)
    let n ← stack.get (stacksz - 1)
    let parent ← stack.get (stacksz - 2)
    let side := getSide m parent n
    let sib ← deref (m.child parent side.other)
    let (m, stack, stacksz) ← if m.color sib = .red then do
        let (m, stack) ← lowerRedSibling m stack stacksz n parent sib
        pure (m, stack, stacksz + 1)
      else pure (m, stack, stacksz)
    let (m, stack, more) ← settleBlack nullNode m stack stacksz n side
    if more then fixMissingBlack nullNode fuel m stack (stacksz - 1) else return (m, stack)

/-- The way to the greatest node below `node2`, with one turn for each slot that is left. -/
def stackRightLimb (m : Rbnodes α) : ℕ → RbStack α → ℕ → α → Except RbFault (RbStack α × ℕ × α)
  | 0, _, _, _ => .error .bounds
  | left + 1, stack, stacksz, node2 =>
    match m.child node2 .right with
    | some ch => do stackRightLimb m left (← stack.set stacksz (some ch)) (stacksz + 1) ch
    | none => .ok (stack, stacksz, node2)

/-- The pointers from `node` and its predecessor `node2` and from the parent of `node2`. -/
def exchangeLinks (m : Rbnodes α) (loparent node node2 : α) : Rbnodes α :=
  let m := if loparent = node then
      let m := m.setChild node .left (m.child node2 .left)
      m.setChild node2 .left (some node)
    else
      let m := m.setChild loparent (getSide m loparent node2) (some node)
      let tmp := m.child node .left
      let m := m.setChild node .left (m.child node2 .left)
      m.setChild node2 .left tmp
  let m := m.setChild node2 .right (m.child node .right)
  m.setChild node .right none

def hiparent (stack : RbStack α) (stacksz : ℕ) : Except RbFault (Option α) :=
  if 1 < stacksz then some <$> stack.get (stacksz - 2) else .ok none

/-- What points to `node` is to point to `node2`: its parent, if it has one, or the tree. -/
def relinkAbove (t : Rbtree α) (hiparent : Option α) (node node2 : α) : Rbtree α :=
  match hiparent with
  | some hi => { t with nodes := t.nodes.setChild hi (getSide t.nodes hi node) (some node2) }
  | none => { t with root := some node2 }

/-- `node`, which has two children, and its predecessor change places. -/
def swapWithPredecessor (t : Rbtree α) (node : α) (stack : RbStack α) (stacksz0 : ℕ) :
    Except RbFault (Rbtree α × RbStack α × ℕ) := do
  let m := t.nodes
  let node2 ← deref (m.child node .left)
  let hi ← hiparent stack stacksz0
  let stack ← stack.set stacksz0 (some node2)
  let (stack, stacksz, node2) ← stackRightLimb m stack.size stack (stacksz0 + 1) node2
  let loparent ← stack.get (stacksz - 2)
  let t := relinkAbove t hi node node2
  let m := exchangeLinks t.nodes loparent node node2
  let tmp ← stack.get (stacksz0 - 1)
  let stack ← stack.set (stacksz0 - 1) (some (← stack.get (stacksz - 1)))
  let stack ← stack.set (stacksz - 1) (some tmp)
  let ctmp := m.color node
  let m := m.setColor node (m.color node2)
  let m := m.setColor node2 ctmp
  return ({ t with nodes := m }, stack, stacksz)

/-- `rb_remove` of a node with at most one child, at the top of the stack. -/
def unlink (t : Rbtree α) (node : α) (stack : RbStack α) (stacksz : ℕ) :
    Except RbFault (Rbtree α) := do
  let m := t.nodes
  let child := (m.child node .left).orElse fun _ => m.child node .right
  if stacksz < 2 then
    match child with
    | some ch => return { t with root := some ch, nodes := m.setColor ch .black }
    | none => return { t with root := none, maxDepth := 0 }
  else
    let parent ← stack.get (stacksz - 2)
    let (m, stack) ← match child with
      | none =>
        if m.color node = .black then fixMissingBlack node (stacksz + 1) m stack stacksz
        else pure (m.setChild parent (getSide m parent node) none, stack)
      | some ch =>
        let m := m.setChild parent (getSide m parent node) (some ch)
        pure (if m.color node = .red ∨ m.color ch = .red then m.setColor ch .black else m, stack)
    return { t with root := stack.slot 0, nodes := m }

def rbRemove (lessthan : α → α → Bool) (t : Rbtree α) (node : α) : Except RbFault (Rbtree α) := do
  let (stack, stacksz) ← findAndStack lessthan t node t.stack
  if (← stack.get (stacksz - 1)) ≠ node then return t
  if (t.nodes.child node .left).isSome && (t.nodes.child node .right).isSome then
    let (t, stack, stacksz) ← swapWithPredecessor t node stack stacksz
    unlink t node stack stacksz
  else unlink t node stack stacksz

/-- The loop of `rb_contains`. -/
def containsFrom (lessthan : α → α → Bool) (m : Rbnodes α) (node : α) :
    ℕ → Option α → Except RbFault Bool
  | 0, _ => .error .endless
  | _ + 1, none => .ok false
  | fuel + 1, some n =>
    if n = node then .ok true
    else containsFrom lessthan m node fuel (m.child n (if lessthan n node then .right else .left))

def rbContains (lessthan : α → α → Bool) (fuel : ℕ) (t : Rbtree α) (node : α) :
    Except RbFault Bool :=
  containsFrom lessthan t.nodes node fuel t.root

/-- `z_rb_walk`, in the order of its visits. -/
def zRbWalk (m : Rbnodes α) : ℕ → Option α → Except RbFault (List α)
  | 0, _ => .error .endless
  | _ + 1, none => .ok []
  | fuel + 1, some n => do
    let l ← zRbWalk m fuel (m.child n .left)
    let r ← zRbWalk m fuel (m.child n .right)
    return l ++ n :: r

/-- `struct _rb_foreach`, with arrays of `max_depth` entries; `count` is `top + 1`. -/
structure RbForeach (α : Type) where
  stack : RbStack α
  isLeft : ℕ → Bool
  count : ℕ

def Rbtree.foreachInit (t : Rbtree α) : RbForeach α := ⟨⟨t.maxDepth, fun _ => none⟩, fun _ => false, 0⟩

def RbForeach.push (f : RbForeach α) (n : α) (isLeft : Bool) : Except RbFault (RbForeach α) := do
  let stack ← f.stack.set f.count (some n)
  return ⟨stack, update f.isLeft f.count isLeft, f.count + 1⟩

/-- The left children below the top, with one turn for each slot that is left. -/
def stackLefts (m : Rbnodes α) : ℕ → RbForeach α → α → Except RbFault (RbForeach α × α)
  | 0, _, _ => .error .bounds
  | left + 1, f, n =>
    match m.child n .left with
    | some ch => do stackLefts m left (← f.push ch true) ch
    | none => .ok (f, n)

def stackLeftLimb (m : Rbnodes α) (n : α) (f : RbForeach α) : Except RbFault (RbForeach α × α) := do
  let f ← f.push n false
  stackLefts m f.stack.size f n

/-- Up to the nearest left child on the stack; 0 if there is none above the bottom. -/
def climb (isLeft : ℕ → Bool) : ℕ → ℕ
  | 0 => 0
  | 1 => 1
  | k + 2 => if isLeft (k + 1) then k + 2 else climb isLeft (k + 1)

def zRbForeachNext (t : Rbtree α) (f : RbForeach α) : Except RbFault (RbForeach α × Option α) := do
  match t.root with
  | none => return (f, none)
  | some root =>
    if f.count = 0 then
      let (f, n) ← stackLeftLimb t.nodes root f
      return (f, some n)
    let top ← f.stack.get (f.count - 1)
    match t.nodes.child top .right with
    | some n =>
      let (f, n) ← stackLeftLimb t.nodes n f
      return (f, some n)
    | none =>
      if f.isLeft (f.count - 1) then
        let f := { f with count := f.count - 1 }
        return (f, some (← f.stack.get (f.count - 1)))
      let f := { f with count := climb f.isLeft f.count - 1 }
      if f.count = 0 then return (f, none)
      return (f, some (← f.stack.get (f.count - 1)))

/-- `RB_FOR_EACH`: the nodes it visits. -/
def rbForEach (t : Rbtree α) : ℕ → RbForeach α → Except RbFault (List α)
  | 0, _ => .error .endless
  | fuel + 1, f => do
    let (f, n) ← zRbForeachNext t f
    match n with
    | some n => return n :: (← rbForEach t fuel f)
    | none => return []

end ZephyrRtos.Sys
