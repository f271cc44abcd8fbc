import CountedBTree.Node.Basic

/-!
# Bare edits

The edits from which larger writes are made: putting an entry in, taking one out,
replacing a value, moving runs of entries or children between two nodes. They
keep entries and children in step but, removal from a leaf apart, leave stored
counts alone; keeping those true is the caller's part. None of them reorders
keys, so a bare edit can leave a node that the checks refuse.
-/

namespace CountedBTree

namespace Node

variable {κ ν : Type}

/-- Put an entry at `slot`, moving later entries up by one. In a branch the new
entry's right child goes directly after it; a leaf must not be given one. -/
def insertEntry (node : Node κ ν) (slot : Nat) (entry : κ × ν)
    (rightChild : Option (Node κ ν)) : Checked (Node κ ν) := do
  unless node.isLeaf = rightChild.isNone do throw .childIffBranch
  unless slot ≤ node.size do throw .insertPastEnd
  unless node.size < node.capacity do throw .insertIntoFull
  let widened := node.withEntries (node.entries.insertIdx slot entry)
  match rightChild with
  | none => pure widened
  | some child =>
      if slot + 1 ≤ node.children.length then
        pure (widened.withChildren (node.children.insertIdx (slot + 1) child))
      else throw (.childInsertionPastEnd (slot + 1) node.children.length)

/-- Put an entry after all others. The room for it is the caller's part. -/
def appendEntry (node : Node κ ν) (entry : κ × ν) : Node κ ν :=
  node.withEntries (node.entries ++ [entry])

/-- Put a child after all others of a branch. The room for it is the caller's part. -/
def appendChild (node : Node κ ν) (child : Node κ ν) : Checked (Node κ ν) :=
  if node.isLeaf then .error .changeChildOfLeaf
  else .ok (node.withChildren (node.children ++ [child]))

/-- Take the last entry out. The last child of a branch stays. -/
def popEntry (node : Node κ ν) : Checked ((κ × ν) × Node κ ν) :=
  match node.entries.getLast? with
  | some entry => .ok (entry, node.withEntries node.entries.dropLast)
  | none => .error .popFromEmpty

/-- Take the entry at `slot` out of a leaf, moving later entries down by one. -/
def removeEntry (node : Node κ ν) (slot : Nat) : Checked ((κ × ν) × Node κ ν) :=
  match node with
  | branch _ _ _ _ => .error .removeFromBranch
  | leaf capacity total entries =>
      match entries[slot]? with
      | none => .error .removeSlotOutOfRange
      | some entry =>
          match total with
          | 0 => .error .countBelowZero
          | left + 1 => .ok (entry, leaf capacity left (entries.eraseIdx slot))

/-- Apply a function to the value at `slot` and answer the value it replaced. -/
def changeValue (node : Node κ ν) (slot : Nat) (change : ν → ν) : Checked (ν × Node κ ν) :=
  match node.entries[slot]? with
  | some entry =>
      .ok (entry.2, node.withEntries (node.entries.set slot (entry.1, change entry.2)))
  | none => .error .valueSlotOutOfRange

/-- Apply a function to the value at `slot` of the node reached by following child
numbers downwards, and answer the value it replaced. Stored counts and keys stay
as they are. -/
def changeValueAlong (change : ν → ν) (slot : Nat) :
    List Nat → Node κ ν → Checked (ν × Node κ ν)
  | [], node => node.changeValue slot change
  | number :: rest, node => do
      let child ← node.childToChange number
      let (old, changed) ← changeValueAlong change slot rest child
      pure (old, node.withChild number changed)

/-- Record that one entry more lies somewhere in the subtree, if its count has room. -/
def countInsertion (node : Node κ ν) : Checked (Node κ ν) := do
  let total ← checkedSum (node.total + 1)
  pure (node.withTotal total)

/-- Move `count` entries starting at `start` to the end of another node. -/
def moveEntries (source target : Node κ ν) (start count : Nat) :
    Checked (Node κ ν × Node κ ν) := do
  unless start + count ≤ source.size do
    throw (.reaching (start + count) .moveEntriesPastSource)
  unless target.size + count ≤ target.capacity do throw .moveEntriesPastTarget
  let moved := (source.entries.drop start).take count
  let kept := source.entries.take start ++ source.entries.drop (start + count)
  pure (source.withEntries kept, target.withEntries (target.entries ++ moved))

/-- Move `count` children starting at `start` to the end of another branch. -/
def moveChildren (source target : Node κ ν) (start count : Nat) :
    Checked (Node κ ν × Node κ ν) := do
  if source.isLeaf then throw .moveChildrenOfLeaf
  if target.isLeaf then throw .changeChildOfLeaf
  unless start + count ≤ source.children.length do
    throw (.reaching (start + count) .moveChildrenPastSource)
  unless target.children.length + count ≤ target.capacity + 1 do
    throw .moveChildrenPastTarget
  let moved := (source.children.drop start).take count
  let kept := source.children.take start ++ source.children.drop (start + count)
  pure (source.withChildren kept, target.withChildren (target.children ++ moved))

end Node

end CountedBTree
