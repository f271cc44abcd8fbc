import CountedBTree.Footprint
import CountedBTree.Search

/-!
# Nodes

A node holds a run of entries. A branch also holds children: one before each of
its entries and one after the last, so entries live in branches as well as in
leaves. Every node stores how many entries its whole subtree holds, which lets a
descent by position skip a child without entering it.

The type admits every combination of entries, children and stored counts. What a
node of a tree must satisfy is checked in `CountedBTree.Node.Check`; the
operations here are defined for all nodes and refuse what has no answer. A node may
be a child in several places, so stored counts can grow past what memory could hold
entry by entry; a sum of them that is no machine word any more is refused.

`Node.toList` is the meaning of a node: its entries in order.
-/

namespace CountedBTree

/-- A node with room for `capacity` entries, recording `total` entries in its
subtree. -/
inductive Node (κ ν : Type) where
  /-- A node without children. -/
  | leaf (capacity total : Nat) (entries : List (κ × ν))
  /-- A node whose entries separate its children. -/
  | branch (capacity total : Nat) (entries : List (κ × ν)) (children : List (Node κ ν))
  deriving Repr, Inhabited

/-- A node of capacity one could not split into two halves around a median. -/
def minCapacity : Nat := 2

section Capacity

variable (κ ν : Type) [Footprint κ] [Footprint ν]

/-- Refuse a capacity that no leaf can have, for entries of the given types. -/
def checkLeafCapacity (capacity : Nat) : Checked Unit := do
  unless minCapacity ≤ capacity do throw (.capacityTooSmall capacity)
  checkPiece capacity (Footprint.bytes κ)
  checkPiece capacity (Footprint.bytes ν)

/-- Refuse a capacity that no branch can have, for entries of the given types. There is one
child more than there are entries. -/
def checkBranchCapacity (capacity : Nat) : Checked Unit := do
  checkLeafCapacity κ ν capacity
  let children ← checkedSum (capacity + 1)
  checkPiece children childBytes

end Capacity

/-- Alternate lists with single elements, a list first. Elements left over when
the lists run out are dropped, and lists left over follow each other. -/
def weave {α : Type} : List (List α) → List α → List α
  | [], _ => []
  | block :: blocks, [] => block ++ weave blocks []
  | block :: blocks, separator :: separators => block ++ separator :: weave blocks separators

namespace Node

variable {κ ν : Type}

/-- The number of entries the node has room for. -/
def capacity : Node κ ν → Nat
  | leaf capacity _ _ => capacity
  | branch capacity _ _ _ => capacity

/-- The stored number of entries in the subtree. -/
def total : Node κ ν → Nat
  | leaf _ total _ => total
  | branch _ total _ _ => total

/-- The entries in the node itself. -/
def entries : Node κ ν → List (κ × ν)
  | leaf _ _ entries => entries
  | branch _ _ entries _ => entries

/-- The children in order, none for a leaf. -/
def children : Node κ ν → List (Node κ ν)
  | leaf _ _ _ => []
  | branch _ _ _ children => children

/-- Whether the node is a leaf. -/
def isLeaf : Node κ ν → Bool
  | leaf _ _ _ => true
  | branch _ _ _ _ => false

/-- The number of entries in the node itself. -/
def size (node : Node κ ν) : Nat := node.entries.length

/-- Whether the node itself holds no entry. -/
def isEmpty (node : Node κ ν) : Bool := node.entries.isEmpty

/-- Whether the node holds as many entries as it has room for. -/
def isFull (node : Node κ ν) : Bool := node.size == node.capacity

/-- The same node with other entries. -/
def withEntries : Node κ ν → List (κ × ν) → Node κ ν
  | leaf capacity total _, changed => leaf capacity total changed
  | branch capacity total _ children, changed => branch capacity total changed children

/-- The same node with other children; a leaf has none to exchange. -/
def withChildren : Node κ ν → List (Node κ ν) → Node κ ν
  | leaf capacity total entries, _ => leaf capacity total entries
  | branch capacity total entries _, changed => branch capacity total entries changed

/-- The same node with another stored count. -/
def withTotal : Node κ ν → Nat → Node κ ν
  | leaf capacity _ entries, changed => leaf capacity changed entries
  | branch capacity _ entries children, changed => branch capacity changed entries children

/-- Replace the child with the given number. -/
def withChild (node : Node κ ν) (number : Nat) (changed : Node κ ν) : Node κ ν :=
  node.withChildren (node.children.set number changed)

mutual

/-- The entries of the whole subtree in order. -/
def toList : Node κ ν → List (κ × ν)
  | leaf _ _ entries => entries
  | branch _ _ entries children => weave (toLists children) entries

/-- The entries of each of several subtrees. -/
def toLists : List (Node κ ν) → List (List (κ × ν))
  | [] => []
  | child :: rest => child.toList :: toLists rest

end

/-- An empty leaf. -/
def newLeaf [Footprint κ] [Footprint ν] (capacity : Nat) : Checked (Node κ ν) := do
  checkLeafCapacity κ ν capacity
  pure (leaf capacity 0 [])

/-- A branch without entries and, so far, without children. -/
def newBranch [Footprint κ] [Footprint ν] (capacity : Nat) : Checked (Node κ ν) := do
  checkBranchCapacity κ ν capacity
  pure (branch capacity 0 [] [])

/-- The branch over two nodes and the entry between them, counting all three. -/
def join [Footprint κ] [Footprint ν] (left : Node κ ν) (median : κ × ν) (right : Node κ ν)
    (capacity : Nat) : Checked (Node κ ν) := do
  checkBranchCapacity κ ν capacity
  let total ← checkedSum (left.total + right.total + 1)
  pure (branch capacity total [median] [left, right])

/-- The number of children a branch of this size has. -/
def childCount (node : Node κ ν) : Checked Nat :=
  if node.isLeaf then .error .childCountOfLeaf else .ok (node.size + 1)

/-- The entry at a slot. -/
def entryAt (node : Node κ ν) (slot : Nat) : Checked (κ × ν) :=
  match node.entries[slot]? with
  | some entry => .ok entry
  | none => .error .entrySlotOutOfRange

/-- The key at a slot. -/
def keyAt (node : Node κ ν) (slot : Nat) : Checked κ :=
  match node.entries[slot]? with
  | some entry => .ok entry.1
  | none => .error .keySlotOutOfRange

/-- The value at a slot. -/
def valueAt (node : Node κ ν) (slot : Nat) : Checked ν :=
  match node.entries[slot]? with
  | some entry => .ok entry.2
  | none => .error .valueSlotOutOfRange

/-- The child with a number, for reading. -/
def childAt (node : Node κ ν) (number : Nat) : Checked (Node κ ν) :=
  match node with
  | leaf _ _ _ => .error .childOfLeaf
  | branch _ _ _ children =>
      match children[number]? with
      | some child => .ok child
      | none => .error .childOutOfRange

/-- The child with a number, for changing. Only the refusal of a leaf differs from
reading. -/
def childToChange (node : Node κ ν) (number : Nat) : Checked (Node κ ν) :=
  match node with
  | leaf _ _ _ => .error .changeChildOfLeaf
  | branch _ _ _ children =>
      match children[number]? with
      | some child => .ok child
      | none => .error .childOutOfRange

/-- The stored counts of several nodes, added up. -/
def totalOfAll : List (Node κ ν) → Nat
  | [] => 0
  | node :: rest => node.total + totalOfAll rest

/-- The stored counts of the first `wanted` children, added up. A leaf has no
children and answers zero whatever is asked. -/
def childrenTotal (node : Node κ ν) (wanted : Nat) : Checked Nat :=
  match node with
  | leaf _ _ _ => .ok 0
  | branch _ _ _ children =>
      if wanted ≤ children.length then checkedSum (totalOfAll (children.take wanted))
      else .error (.childSumPastEnd wanted children.length)

/-- How many entries of the subtree come before the entry at `slot`. In a branch
these include the children up to and including the one just before the entry. -/
def offsetOfSlot (node : Node κ ν) (slot : Nat) : Checked Nat := do
  if node.isLeaf then pure slot
  else
    let below ← (node.childrenTotal (slot + 1)).mapError (.reaching (slot + 1))
    checkedSum (slot + below)

variable [Ord κ]

/-- The smallest slot whose key is not less than `key`. -/
def firstSlot (node : Node κ ν) (key : κ) : Nat := CountedBTree.firstSlot key node.entries

/-- The smallest slot whose key is greater than `key`. -/
def lastSlot (node : Node κ ν) (key : κ) : Nat := CountedBTree.lastSlot key node.entries

mutual

/-- The value of some entry with an equal key: the first one met on the way down,
which need not be the first in order. -/
def lookup (key : κ) : Node κ ν → Checked (Option ν)
  | leaf _ _ entries =>
      .ok ((entryEqualTo key entries (CountedBTree.firstSlot key entries)).map Prod.snd)
  | branch _ _ entries children =>
      let slot := CountedBTree.firstSlot key entries
      match entryEqualTo key entries slot with
      | some entry => .ok (some entry.2)
      | none => lookupChild key (.lookupChildMissing slot children.length) slot children

/-- Continue a lookup in the child with the given number. -/
def lookupChild (key : κ) (missing : Fault) : Nat → List (Node κ ν) → Checked (Option ν)
  | _, [] => .error missing
  | 0, child :: _ => child.lookup key
  | number + 1, _ :: rest => lookupChild key missing number rest

end

end Node

end CountedBTree
