import CountedBTree.Node.Check
import CountedBTree.Place
import CountedBTree.Sweep

/-!
# Trees

A tree is a root node with the capacities for nodes still to be made and a
generation, the number of writes since the tree was made empty, which is a machine
word. Equal keys may occur any number of times. This module holds what can be read
without comparing keys: size, ends, positions, and the entries at a run of offsets.
-/

namespace CountedBTree

/-- How many entries nodes have room for. -/
structure Capacities where
  /-- The capacity of leaves. -/
  leaf : Nat
  /-- The capacity of branches. -/
  branch : Nat
  deriving DecidableEq, Repr

/-- The capacities of a tree that asks for none. -/
def Capacities.standard : Capacities := ⟨470, 16⟩

/-- The same capacity for leaves and branches. -/
def Capacities.uniform (capacity : Nat) : Capacities := ⟨capacity, capacity⟩

/-- A tree of entries in key order. -/
structure Tree (κ ν : Type) where
  /-- The node above all others. -/
  root : Node κ ν
  /-- The capacities for new nodes. A leaf made by a split takes the capacity of the
  leaf it came from. -/
  capacities : Capacities
  /-- The number of writes so far. -/
  generation : Nat
  deriving Repr

namespace Tree

variable {κ ν : Type}

/-- An empty tree. The capacity of branches is looked at first, although no branch is made
before the root splits, and then only for being too small. -/
def empty [Footprint κ] [Footprint ν] (capacities : Capacities) : Checked (Tree κ ν) := do
  unless minCapacity ≤ capacities.branch do throw (.capacityTooSmall capacities.branch)
  let root ← Node.newLeaf capacities.leaf
  pure ⟨root, capacities, 0⟩

/-- An empty tree with the same capacities. -/
def emptyLike [Footprint κ] [Footprint ν] (tree : Tree κ ν) : Checked (Tree κ ν) :=
  empty tree.capacities

/-- The number of entries. -/
def size (tree : Tree κ ν) : Nat := tree.root.total

/-- Whether there are no entries. -/
def isEmpty (tree : Tree κ ν) : Bool := tree.size == 0

/-- The number of levels; a lone leaf counts as one. -/
def height (tree : Tree κ ν) : Checked Nat := tree.root.height

/-- The entries in order. -/
def toList (tree : Tree κ ν) : List (κ × ν) := tree.root.toList

/-- The first entry. -/
def first? (tree : Tree κ ν) : Checked (Option (κ × ν)) := do
  let trail ← tree.root.leftmost
  trail.entry?

/-- The last entry. -/
def last? (tree : Tree κ ν) : Checked (Option (κ × ν)) := do
  let trail ← tree.root.rightmost
  trail.entry?

/-- The entry at an offset. -/
def entryAt? (tree : Tree κ ν) (offset : Nat) : Checked (Option (κ × ν)) := do
  let trail ← tree.root.seekOffset offset
  trail.entry?

/-- The place of the first entry. -/
def firstPlace (tree : Tree κ ν) : Checked (Option (Place κ ν)) := do
  let trail ← tree.root.leftmost
  pure (Place.ofTrail trail)

/-- The place of the last entry. -/
def lastPlace (tree : Tree κ ν) : Checked (Option (Place κ ν)) := do
  let trail ← tree.root.rightmost
  pure (Place.ofTrail trail)

/-- The place of the entry at an offset, which must be less than the size. -/
def placeAt (tree : Tree κ ν) (offset : Nat) : Checked (Place κ ν) := do
  unless offset < tree.size do throw .offsetOutOfRange
  let trail ← tree.root.seekOffset offset
  match Place.ofTrail trail with
  | some place => pure place
  | none => throw .offsetWithoutPlace

/-- The offset of the entry at a place. -/
def offsetOf (tree : Tree κ ν) (place : Place κ ν) : Checked Nat := do
  let trail ← place.trail tree.root
  let position ← trail.position?
  match position with
  | some offset => pure offset
  | none => throw .placeWithoutOffset

/-- Go over all entries. -/
def sweep (tree : Tree κ ν) : Checked (Sweep κ ν) := Sweep.ofOffsets tree.root 0 tree.size

/-- Check every node, and that the height is the one the check found. -/
def check [Ord κ] (tree : Tree κ ν) : Checked Unit := do
  let depth ← tree.root.check
  let height ← tree.height
  unless depth + 1 = height do throw .heightMismatch

end Tree

end CountedBTree
