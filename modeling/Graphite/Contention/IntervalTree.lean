import Graphite.Library.AvlTree
import Graphite.Library.Outcome
import Graphite.Library.Spans

/-! # The interval tree

The free intervals of a queue in a balanced search tree. Nodes are known by their address; a recursion
along the pointers is bounded here by the number of nodes.
-/

namespace Graphite.Contention

open Outcome
open AvlTree (Side Close)

/-- The assertions of the tree and of the queue models, null pointers and endless recursions. -/
inductive Fault
  | nullPointer | endless | noChild | notUnbalanced | notBalanced | duplicateKey | wrongNode
  | emptyList | listTooLong | noServiceTime | noInterval | notInInterval | noFreeBlock | notABlock
  | allBlocksFree | noDelay
  deriving DecidableEq, Repr

abbrev Interval := Spans.Span

structure Node where
  parent : Option ℕ
  left : Option ℕ
  right : Option ℕ
  height : ℕ
  key : ℕ
  interval : Interval
  deriving DecidableEq, Repr

def Node.initializeWith (i : Interval) : Node := ⟨none, none, none, 1, i.first, i⟩

structure IntervalTree where
  nodes : ℕ → Node
  root : Option ℕ
  size : ℕ

def Node.child (n : Node) : Side → Option ℕ
  | .left => n.left
  | .right => n.right

def Node.setChild (n : Node) (side : Side) (child : Option ℕ) : Node :=
  match side with
  | .left => { n with left := child }
  | .right => { n with right := child }

def Node.setParent (n : Node) (parent : Option ℕ) : Node := { n with parent := parent }

def Node.setHeight (n : Node) (height : ℕ) : Node := { n with height := height }

def Node.setPair (n : Node) (key : ℕ) (interval : Interval) : Node := { n with key := key, interval := interval }

def add64 (a b : ℕ) : ℕ := (a + b) % 2 ^ 64

def sub64 (a b : ℕ) : ℕ := (a + 2 ^ 64 - b) % 2 ^ 64

namespace IntervalTree

def modify (s : IntervalTree) (p : ℕ) (f : Node → Node) : IntervalTree :=
  { s with nodes := Function.update s.nodes p (f (s.nodes p)) }

variable (s : IntervalTree)

/-- The side is the given one, or follows from the keys. -/
def updateChildPointer (node child : Option ℕ) (direction : Option Side) : Except Fault IntervalTree :=
  match node with
  | none => pure s
  | some p =>
    match direction with
    | some side => pure (s.modify p (·.setChild side child))
    | none =>
      match child with
      | none => throw .noChild
      | some c =>
        let side := if (s.nodes p).key < (s.nodes c).key then .right else .left
        pure (s.modify p (·.setChild side child))

def updateParentPointer (node parent : Option ℕ) : IntervalTree :=
  let s := match node with
    | none => s
    | some p => s.modify p (·.setParent parent)
  if parent = none then { s with root := node } else s

def getHeight : Option ℕ → ℕ
  | none => 0
  | some p => (s.nodes p).height

def heightBalanced (p : ℕ) : Prop :=
  Close (s.getHeight (s.nodes p).left) (s.getHeight (s.nodes p).right)

instance (p : ℕ) : Decidable (s.heightBalanced p) := inferInstanceAs (Decidable (Close _ _))

def updateHeight (p : ℕ) : IntervalTree :=
  s.modify p (·.setHeight (max (s.getHeight (s.nodes p).left) (s.getHeight (s.nodes p).right) + 1))

/-- The child of `y` on `side` comes up: CLOCKWISE for the left one, ANTI_CLOCKWISE for the right one. -/
def performRotation (y : ℕ) (side : Side) : Except Fault IntervalTree :=
  match (s.nodes y).child side with
  | none => throw .nullPointer
  | some x => do
    let s := s.updateParentPointer (some x) (s.nodes y).parent
    let s ← s.updateChildPointer (s.nodes x).parent (some x) none
    let s := s.modify y (·.setChild side ((s.nodes x).child side.flip))
    let s := s.updateParentPointer ((s.nodes y).child side) (some y)
    let s := s.modify x (·.setChild side.flip (some y))
    let s := s.updateParentPointer (some y) (some x)
    pure ((s.updateHeight y).updateHeight x)

/-- The child `y` of `z` on `side` comes up, or first its child `x` on the other side if that is higher. -/
def liftChild (z : ℕ) (side : Side) : Except Fault (IntervalTree × ℕ) :=
  match (s.nodes z).child side with
  | none => throw .nullPointer
  | some y =>
    if s.getHeight ((s.nodes y).child side.flip) > s.getHeight ((s.nodes y).child side) then
      match (s.nodes y).child side.flip with
      | none => throw .nullPointer
      | some x => do
        let s ← s.performRotation y side.flip
        let s ← s.performRotation z side
        pure (s, x)
    else do
      check ((s.nodes y).child side ≠ none) .nullPointer
      let s ← s.performRotation z side
      pure (s, y)

def balanceHeight (z : ℕ) : Except Fault (IntervalTree × ℕ) := do
  let left := s.getHeight ((s.nodes z).child .left)
  let right := s.getHeight ((s.nodes z).child .right)
  check (left ≠ right) .notUnbalanced
  s.liftChild z (if left > right then .left else .right)

/-- What `rebalanceAVLTree` does at one node. -/
def rebalanceNode (p : ℕ) : Except Fault (IntervalTree × ℕ) :=
  if s.heightBalanced p then pure (s.updateHeight p, p) else s.balanceHeight p

def rebalanceAVLTree : ℕ → IntervalTree → Option ℕ → Except Fault IntervalTree
  | _, s, none => pure s
  | 0, _, some _ => throw .endless
  | fuel + 1, s, some p => do
    let oldHeight := (s.nodes p).height
    let (s, q) ← s.rebalanceNode p
    check (s.heightBalanced q) .notBalanced
    if (s.nodes q).height ≠ oldHeight then rebalanceAVLTree fuel s (s.nodes q).parent
    else pure s

def swap (p q : ℕ) : IntervalTree :=
  (s.modify p (·.setPair (s.nodes q).key (s.nodes q).interval)).modify q
    (·.setPair (s.nodes p).key (s.nodes p).interval)

def findMinKeyNode : ℕ → ℕ → Except Fault ℕ
  | 0, _ => throw .endless
  | fuel + 1, p =>
    match (s.nodes p).left with
    | some l => findMinKeyNode fuel l
    | none => pure p

def insertInTree (node : ℕ) : ℕ → Option ℕ → Except Fault IntervalTree
  | _, none => throw .nullPointer
  | 0, some _ => throw .endless
  | fuel + 1, some p =>
    if (s.nodes node).key < (s.nodes p).key then
      match (s.nodes p).left with
      | some l => insertInTree node fuel (some l)
      | none => rebalanceAVLTree s.size
          ((s.modify p (·.setChild .left (some node))).modify node (·.setParent (some p))) (some p)
    else if (s.nodes node).key > (s.nodes p).key then
      match (s.nodes p).right with
      | some r => insertInTree node fuel (some r)
      | none => rebalanceAVLTree s.size
          ((s.modify p (·.setChild .right (some node))).modify node (·.setParent (some p))) (some p)
    else throw .duplicateKey

def insert (node : ℕ) : Except Fault IntervalTree :=
  let s := { s with size := s.size + 1 }
  s.insertInTree node s.size s.root

def childSide (node : ℕ) (parent : Option ℕ) : Option Side :=
  parent.map fun p => if (s.nodes p).key < (s.nodes node).key then .right else .left

/-- The tree without a node, and the node that is left over. -/
def removeFromTree : ℕ → IntervalTree → ℕ → Except Fault (IntervalTree × ℕ)
  | 0, _, _ => throw .endless
  | fuel + 1, s, node =>
    let n := s.nodes node
    match n.left, n.right with
    | none, right => do
      let s ← s.updateChildPointer n.parent right (s.childSide node n.parent)
      let s := s.updateParentPointer right n.parent
      let s ← rebalanceAVLTree (s.size + 1) s n.parent
      pure (s, node)
    | some left, none => do
      let s ← s.updateChildPointer n.parent (some left) none
      let s := s.updateParentPointer (some left) n.parent
      let s ← rebalanceAVLTree (s.size + 1) s n.parent
      pure (s, node)
    | some _, some right => do
      let successor ← s.findMinKeyNode (s.size + 1) right
      let (s, removed) ← removeFromTree fuel s successor
      check (removed = successor) .wrongNode
      pure (s.swap node successor, successor)

/-- The second call of `removeFromTree` is for a node without a left child. -/
def remove (node : ℕ) : Except Fault (IntervalTree × ℕ) :=
  removeFromTree 2 { s with size := s.size - 1 } node

/-- The node that is found first, or else the one that is found then. -/
def firstFound (first second : Except Fault (Option ℕ)) : Except Fault (Option ℕ) := do
  match ← first with
  | some q => pure (some q)
  | none => second

def searchTree (interval : Interval) : ℕ → Option ℕ → Except Fault (Option ℕ)
  | _, none => pure none
  | 0, some _ => throw .endless
  | fuel + 1, some p =>
    let root := s.nodes p
    if interval.first ≥ root.interval.first ∧ interval.second ≤ root.interval.second then pure (some p)
    else firstFound
      (if interval.second < root.interval.first then searchTree interval fuel root.left else pure none)
      (if interval.first < root.interval.first ∧
          sub64 root.interval.second root.interval.first ≥ sub64 interval.second interval.first then pure (some p)
      else searchTree interval fuel root.right)

def search (interval : Interval) : Except Fault (Option ℕ) := s.searchTree interval s.size s.root

/-- The nodes in the order in which they are printed. -/
def inOrderTraversalTree : ℕ → Option ℕ → Except Fault (List ℕ)
  | _, none => pure []
  | 0, some _ => throw .endless
  | fuel + 1, some p => do
    let left ← inOrderTraversalTree fuel (s.nodes p).left
    let right ← inOrderTraversalTree fuel (s.nodes p).right
    pure (left ++ p :: right)

def inOrderTraversal : Except Fault (List ℕ) := s.inOrderTraversalTree s.size s.root

end IntervalTree

end Graphite.Contention
