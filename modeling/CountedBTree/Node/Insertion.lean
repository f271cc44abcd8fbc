import CountedBTree.Event
import CountedBTree.Node.Check
import CountedBTree.Node.Edit

/-!
# Insertion into one node

An entry that arrives at a full node splits it. The entries, the new one among
them, are divided into a left half, a median and a right half; the node keeps the
left half, and the median and right half go to the parent, for which they are an
entry with its right child. A branch receives its new entry in the same way from
the child that split, so its own children divide along.

The three sides on which a new entry can fall relative to the median divide the
run at different places, chosen so that the halves differ by at most one entry. Each
of them is a sequence of bare edits on the node and on an empty one beside it.
-/

namespace CountedBTree

variable {κ ν : Type}

/-- What insertion into one node leaves behind. -/
inductive Insertion (κ ν : Type) where
  /-- There was room; this is the node with the new entry. -/
  | kept (node : Node κ ν)
  /-- The node was full; the median goes between the two halves. -/
  | split (left : Node κ ν) (median : κ × ν) (right : Node κ ν)
  deriving Repr

/-- The side of the median on which a slot of a full node of the given size falls. -/
def SplitSide.ofSlot (size slot : Nat) : SplitSide :=
  if slot = size / 2 then .atMedian
  else if slot > size / 2 then .rightOfMedian
  else .leftOfMedian

namespace Node

/-- An empty node of the same kind and capacity. There is a node of that capacity already,
so another one can be made. -/
def emptied : Node κ ν → Node κ ν
  | leaf capacity _ _ => leaf capacity 0 []
  | branch capacity _ _ _ => branch capacity 0 [] []

/-- Divide a full node around an entry that arrives at the median. -/
def divideAtMedian (node : Node κ ν) (entry : κ × ν) (rightChild : Option (Node κ ν)) :
    Checked (Node κ ν × (κ × ν) × Node κ ν) := do
  let count := node.size
  let upper := count / 2
  let (left, right) ← node.moveEntries node.emptied upper (count - upper)
  match rightChild with
  | none => pure (left, entry, right)
  | some child =>
      let right ← right.appendChild child
      let (left, right) ← left.moveChildren right (upper + 1) (count - upper)
      pure (left, entry, right)

/-- Divide a full node around its upper median while an entry arrives behind that. The
right half is gathered around the entry. -/
def divideRightOfMedian (node : Node κ ν) (slot : Nat) (entry : κ × ν)
    (rightChild : Option (Node κ ν)) : Checked (Node κ ν × (κ × ν) × Node κ ν) := do
  let count := node.size
  let upper := count / 2
  let (left, right) ← node.moveEntries node.emptied (upper + 1) (slot - upper - 1)
  let (left, right) ← left.moveEntries (right.appendEntry entry) (upper + 1) (count - slot)
  match rightChild with
  | none =>
      let (median, left) ← left.popEntry
      pure (left, median, right)
  | some child =>
      let (left, right) ← left.moveChildren right (upper + 1) (slot - upper)
      let right ← right.appendChild child
      let (left, right) ← left.moveChildren right (upper + 1) (count - slot)
      let (median, left) ← left.popEntry
      pure (left, median, right)

/-- Divide a full node around its lower median while an entry arrives before that. The
entry goes into the left half when the right one is complete. -/
def divideLeftOfMedian (node : Node κ ν) (slot : Nat) (entry : κ × ν)
    (rightChild : Option (Node κ ν)) : Checked (Node κ ν × (κ × ν) × Node κ ν) := do
  let count := node.size
  let lower := (count - 1) / 2
  let (left, right) ← node.moveEntries node.emptied (lower + 1) (count - lower - 1)
  let (left, right) ←
    if node.isLeaf then pure (left, right)
    else left.moveChildren right (lower + 1) (count - lower)
  let (median, left) ← left.popEntry
  let left ← left.insertEntry slot entry rightChild
  pure (left, median, right)

/-- The two halves of a full node, and the median between them, as they are before
the counts are settled: the left half still stores the whole count and the right
half stores none. Children past the count a branch should have are not moved, so the check
of the left half finds them. -/
def divide (node : Node κ ν) (slot : Nat) (entry : κ × ν) (rightChild : Option (Node κ ν)) :
    SplitSide → Checked (Node κ ν × (κ × ν) × Node κ ν)
  | .atMedian => node.divideAtMedian entry rightChild
  | .rightOfMedian => node.divideRightOfMedian slot entry rightChild
  | .leftOfMedian => node.divideLeftOfMedian slot entry rightChild

variable [Ord κ]

/-- Split a full node while an entry arrives at `slot`. The left half counts its own
entries and the subtrees of its children; the right half gets what is left of the
count once the new entry is added and the median taken away. A count with no room for
the new entry is refused before anything is divided, and one that the left half and
the median exceed after that. In the end the halves must not differ by more than one
entry. -/
def splitInsert (node : Node κ ν) (slot : Nat) (entry : κ × ν)
    (rightChild : Option (Node κ ν)) : Traced Fault (Insertion κ ν) := do
  unless node.isLeaf = rightChild.isNone do Traced.refuse .childIffBranch
  let combined ← checkedSum (node.total + 1)
  let side := SplitSide.ofSlot node.size slot
  Traced.report (.split side node.capacity slot)
  let (left, median, right) ← node.divide slot entry rightChild side
  let below ← left.childrenTotal (left.size + 1)
  let leftTotal ← checkedSum (left.size + below)
  unless leftTotal + 1 ≤ combined do Traced.refuse .countBelowZero
  let settledLeft := left.withTotal leftTotal
  let settledRight := right.withTotal (combined - (leftTotal + 1))
  settledLeft.checkShallow
  settledRight.checkShallow
  unless left.size ≤ right.size + 1 ∧ right.size ≤ left.size + 1 do
    Traced.refuse .unevenHalves
  pure (.split settledLeft median settledRight)

/-- Insert an entry at `slot`, with its right child directly after it in a branch.
The subtree gains exactly one entry either way: a right child comes out of a child
of this node that has been counted already. The node, or each half of it, is
checked before it is handed back. -/
def insertAt (node : Node κ ν) (slot : Nat) (entry : κ × ν)
    (rightChild : Option (Node κ ν)) : Traced Fault (Insertion κ ν) := do
  unless slot ≤ node.size do Traced.refuse .insertionSlotOutOfRange
  if node.isFull then node.splitInsert slot entry rightChild
  else
    let widened ← node.insertEntry slot entry rightChild
    let counted ← widened.countInsertion
    counted.checkShallow
    pure (.kept counted)

end Node

end CountedBTree
