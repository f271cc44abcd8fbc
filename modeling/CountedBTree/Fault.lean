/-!
# Faults

Every operation that can be refused names the cause of the refusal. A cause is
either a broken precondition, such as a slot past the end of a node, or a broken
agreement between a node and its stored counts, which no tree built through this
library shows. Both kinds are values, so a statement that some operation never
meets a broken agreement can be written down.

`Fault.message` is the only place where causes become text.
-/

namespace CountedBTree

/-- Why an operation was refused. Slots, lengths and capacities count entries;
child numbers count children. -/
inductive Fault where
  /-- A node needs room for two entries, or a split would leave an empty half. -/
  | capacityTooSmall (given : Nat)
  /-- A node was to have more room than a piece of memory holds. -/
  | capacityTooLarge
  /-- A node holds more entries than its capacity. -/
  | overfull (held capacity : Nat)
  /-- The keys inside one node descend somewhere. -/
  | unordered
  /-- A branch does not have exactly one child more than entries. -/
  | childCountMismatch
  /-- A stored subtree count differs from the entries found there. -/
  | totalMismatch
  /-- A branch has no entry to separate its children. -/
  | noSeparator
  /-- A node other than the root is empty. -/
  | emptyChild
  /-- The child after a separator starts with a smaller key. -/
  | belowSeparator
  /-- The child before a separator ends with a larger key. -/
  | aboveSeparator
  /-- Two leaves lie at different depths. -/
  | unevenLeaves
  /-- The leftmost descent disagrees with the checked depth. -/
  | heightMismatch
  /-- An insertion names a slot past the end of the node. -/
  | insertionSlotOutOfRange
  /-- A branch was given no right child, or a leaf was given one. -/
  | childIffBranch
  /-- The halves of a split differ by more than one entry. -/
  | unevenHalves
  /-- A bare insertion names a slot past the end of the node. -/
  | insertPastEnd
  /-- A bare insertion into a node without room. -/
  | insertIntoFull
  /-- A right child would land past the end of the children. -/
  | childInsertionPastEnd (position count : Nat)
  /-- An empty node has no last entry. -/
  | popFromEmpty
  /-- Bare removal is for leaves only. -/
  | removeFromBranch
  /-- Bare removal names a slot past the end. -/
  | removeSlotOutOfRange
  /-- A leaf has no child count. -/
  | childCountOfLeaf
  /-- No entry at the slot. -/
  | entrySlotOutOfRange
  /-- No key at the slot. -/
  | keySlotOutOfRange
  /-- No value at the slot. -/
  | valueSlotOutOfRange
  /-- A leaf has no children to read. -/
  | childOfLeaf
  /-- A leaf has no children to change. -/
  | changeChildOfLeaf
  /-- No child with that number. -/
  | childOutOfRange
  /-- The run of entries to move leaves the source node. -/
  | moveEntriesPastSource
  /-- The run of entries to move does not fit into the target node. -/
  | moveEntriesPastTarget
  /-- A leaf has no children to move. -/
  | moveChildrenOfLeaf
  /-- The run of children to move leaves the source node. -/
  | moveChildrenPastSource
  /-- The run of children to move does not fit into the target node. -/
  | moveChildrenPastTarget
  /-- A key lookup descends into a child that is not there. -/
  | lookupChildMissing (number count : Nat)
  /-- A sum over the first children asks for more children than there are. -/
  | childSumPastEnd (wanted count : Nat)
  /-- A sum does not fit a machine word. -/
  | sumTooLarge
  /-- A product does not fit a machine word. -/
  | productTooLarge
  /-- A count would fall below zero. -/
  | countBelowZero
  /-- A remainder by zero was asked for. -/
  | zeroModulus
  /-- The quotient that goes with a remainder does not fit a machine word. -/
  | quotientTooLarge
  /-- A position names a slot past the end of the node it leads to. -/
  | placeSlotOutOfRange
  /-- A descent by offset ran out of children. -/
  | totalsInconsistent
  /-- A position was asked for past the last entry. -/
  | offsetOutOfRange
  /-- An offset inside the tree led to no position. -/
  | offsetWithoutPlace
  /-- A position led to no entry, so it has no offset. -/
  | placeWithoutOffset
  /-- A valid bookmark led to no entry. -/
  | bookmarkWithoutEntry
  /-- An update was handed up past the root with no separator to take it. -/
  | updateUnclaimed
  /-- A plain insertion came back as an update. -/
  | insertionUpdated
  /-- The subscript form of lookup was given an absent key. -/
  | missingKey
  /-- A bookmark of another state of the dictionary, or of another dictionary. -/
  | staleBookmark
  /-- The end has no entry and nothing after it. -/
  | endBookmark
  /-- Nothing comes before the first entry. -/
  | beforeStart
  /-- A bookmark was asked for at an offset past the end. -/
  | bookmarkOffsetOutOfRange
  /-- A jump would leave the dictionary. -/
  | jumpOutOfRange
  /-- Two bookmarks of different states were compared. -/
  | incomparableBookmarks
  deriving DecidableEq, Repr

/-- An operation that either answers or names the cause of its refusal. -/
abbrev Checked (α : Type) := Except Fault α

namespace Fault

/-- Slots, counts and offsets are machine words of 64 bits, which are smaller than this. -/
def wordLimit : Nat := 0x10000000000000000

/-- The cause when a run that ends at `stop` reaches past the end of what is there. An
end that is no machine word any more is refused for that, whatever is there. -/
def reaching (stop : Nat) (cause : Fault) : Fault :=
  if stop < wordLimit then cause else sumTooLarge

/-- The lead-in of a message about a case that cannot arise. -/
def unreachable (cause : String) : String :=
  "internal error: entered unreachable code: " ++ cause

/-- The wording of each cause. -/
def message : Fault → String
  | capacityTooSmall given => "node capacity must be at least 2, got " ++ toString given
  | capacityTooLarge => "capacity overflow"
  | overfull held capacity =>
      "node holds " ++ toString held ++ " elements but has capacity " ++ toString capacity
  | unordered => "node is out of order"
  | childCountMismatch => "internal node must have a child on each side of every key"
  | totalMismatch => "total element count does not match the subtree"
  | noSeparator => "internal node has no separator keys"
  | emptyChild => "non-root node is empty"
  | belowSeparator => "right subtree must not hold keys below its separator"
  | aboveSeparator => "left subtree must not hold keys above its separator"
  | unevenLeaves => "leaves are not all at the same depth"
  | heightMismatch => "tree height is inconsistent"
  | insertionSlotOutOfRange => "insertion slot out of bounds"
  | childIffBranch => "a right child must be given iff the node is internal"
  | unevenHalves => "assertion failed: self.len().abs_diff(right.len()) <= 1"
  | insertPastEnd => "cannot insert past the end of a node"
  | insertIntoFull => "cannot insert beyond node capacity"
  | childInsertionPastEnd position count =>
      "insertion index (is " ++ toString position ++ ") should be <= len (is " ++
        toString count ++ ")"
  | popFromEmpty => "cannot pop an element from an empty node"
  | removeFromBranch => "cannot remove an element from an internal node"
  | removeSlotOutOfRange => "attempt to remove out-of-bounds element"
  | childCountOfLeaf => "cannot access the child count on a leaf"
  | entrySlotOutOfRange => "node element subscript out of bounds"
  | keySlotOutOfRange => "node key subscript out of bounds"
  | valueSlotOutOfRange => "node value subscript out of bounds"
  | childOfLeaf => "cannot access children of a leaf node"
  | changeChildOfLeaf => "cannot modify children of a leaf node"
  | childOutOfRange => "node child subscript out of bounds"
  | moveEntriesPastSource => "cannot move elements beyond the source node"
  | moveEntriesPastTarget => "cannot move elements beyond destination capacity"
  | moveChildrenOfLeaf => "cannot move children from a leaf node"
  | moveChildrenPastSource => "cannot move children beyond the source node"
  | moveChildrenPastTarget => "cannot move children beyond destination capacity"
  | lookupChildMissing number count =>
      "index out of bounds: the len is " ++ toString count ++ " but the index is " ++
        toString number
  | childSumPastEnd wanted count =>
      "range end index " ++ toString wanted ++ " out of range for slice of length " ++
        toString count
  | sumTooLarge => "attempt to add with overflow"
  | productTooLarge => "attempt to multiply with overflow"
  | countBelowZero => "attempt to subtract with overflow"
  | zeroModulus => "attempt to calculate the remainder with a divisor of zero"
  | quotientTooLarge => "attempt to calculate the remainder with overflow"
  | placeSlotOutOfRange => "path slot out of bounds"
  | totalsInconsistent => unreachable "total element counts are inconsistent"
  | offsetOutOfRange => "element offset out of bounds"
  | offsetWithoutPlace => unreachable "in-bounds offset produced no path"
  | placeWithoutOffset => unreachable "path cursor is never empty"
  | bookmarkWithoutEntry => unreachable "a valid path always points at an element"
  | updateUnclaimed => unreachable "update deferred past the root"
  | insertionUpdated => unreachable "plain insertion never updates"
  | missingKey => "SortedDict::index: invalid key"
  | staleBookmark => "Attempt to use an invalid SortedDictionary index."
  | endBookmark => "Attempt to access the end index of a SortedDictionary."
  | beforeStart => "Attempt to move before the start index of a SortedDictionary."
  | bookmarkOffsetOutOfRange => "SortedDict::index_at: offset out of bounds"
  | jumpOutOfRange => "Attempt to move an index out of the bounds of a SortedDictionary."
  | incomparableBookmarks =>
      "Attempt to compare indices from different SortedDictionary states."

end Fault

/-- A sum of counts, which must be a machine word like the counts themselves. -/
def checkedSum (sum : Nat) : Checked Nat :=
  if sum < Fault.wordLimit then .ok sum else .error .sumTooLarge

end CountedBTree
