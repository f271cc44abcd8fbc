import CountedBTree.Bounds
import CountedBTree.Tree.Basic

/-!
# Finding keys

Every search here is one descent from the root to a leaf. A descent that takes the
first slot whose key is not less than the key sought keeps all smaller keys on its
left. Equal keys further to the left can then only lie below the child just before
a match, so the deepest match of the descent is the first equal entry in order. The
same descent, and the one that takes the first slot with a greater key, count the
entries on their left.
-/

namespace CountedBTree

namespace Tree

variable {κ ν : Type} [Ord κ]

/-- The descent that keeps the entries with smaller keys on its left. -/
def descendBefore (tree : Tree κ ν) (key : κ) : Checked (Trail κ ν) :=
  tree.root.descend (fun node => node.firstSlot key)

/-- The descent that keeps the entries with keys not greater on its left. -/
def descendAfter (tree : Tree κ ν) (key : κ) : Checked (Trail κ ν) :=
  tree.root.descend (fun node => node.lastSlot key)

/-- The value of some entry with an equal key. Among several it may be any. -/
def anyValue (tree : Tree κ ν) (key : κ) : Checked (Option ν) := tree.root.lookup key

/-- Whether some entry has an equal key. -/
def contains (tree : Tree κ ν) (key : κ) : Checked Bool := do
  let value ← tree.anyValue key
  pure value.isSome

/-- The value of the first entry with an equal key. -/
def firstValue (tree : Tree κ ν) (key : κ) : Checked (Option ν) := do
  let trail ← tree.descendBefore key
  pure (trail.deepestValue key)

/-- Where the first entry with an equal key is: the child numbers and the slot. -/
def locateFirst (tree : Tree κ ν) (key : κ) : Checked (Option (List Nat × Nat)) := do
  let trail ← tree.descendBefore key
  pure (trail.deepestMatch key)

/-- The place of the first entry with an equal key. -/
def findFirst (tree : Tree κ ν) (key : κ) : Checked (Option (Place κ ν)) := do
  let found ← tree.locateFirst key
  match found with
  | none => pure none
  | some (numbers, slot) =>
      let trail ← tree.root.follow slot numbers
      pure (Place.ofTrail trail)

/-- The number of entries with a smaller key. -/
def countLess (tree : Tree κ ν) (key : κ) : Checked Nat := do
  let trail ← tree.descendBefore key
  trail.countBefore

/-- The number of entries whose key is not greater. -/
def countNotGreater (tree : Tree κ ν) (key : κ) : Checked Nat := do
  let trail ← tree.descendAfter key
  trail.countBefore

/-- The offsets of the entries whose keys satisfy two bounds. -/
def offsetsBetween (tree : Tree κ ν) (low high : Bound κ) : Checked OffsetRange :=
  OffsetRange.between low high tree.size tree.countLess tree.countNotGreater

/-- Go over the entries whose keys satisfy two bounds. -/
def sweepBetween (tree : Tree κ ν) (low high : Bound κ) : Checked (Sweep κ ν) := do
  let offsets ← tree.offsetsBetween low high
  Sweep.ofOffsets tree.root offsets.start offsets.stop

end Tree

end CountedBTree
