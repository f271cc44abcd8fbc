import CountedBTree.Node.Basic

/-!
# Trails

A trail is a way down a tree: one frame for each node visited, from the root
downwards. Each frame pairs a node with a number. In every frame but the last the
number is that of the child the next frame stands in; in the last frame it is a
slot of that node. A trail whose last slot holds an entry is a position in the
tree. The empty trail is the position past either end.

All ways of reaching an entry are ways of building a trail: by a rule that picks a
child at each node, by explicit child numbers, or by counting entries.
-/

namespace CountedBTree

variable {κ ν : Type}

/-- One level of a trail. -/
structure Frame (κ ν : Type) where
  /-- The node visited. -/
  node : Node κ ν
  /-- The child taken, or, in the last frame, the slot. -/
  number : Nat
  deriving Repr

/-- A way down from the root, root first. -/
abbrev Trail (κ ν : Type) := List (Frame κ ν)

/-- The entries that come before the frame's child, within the frame's node: the
separators before it and the children before it. In a leaf, the entries before the
slot. -/
def Frame.before (frame : Frame κ ν) : Checked Nat := do
  let below ← frame.node.childrenTotal frame.number
  checkedSum (frame.number + below)

/-- The entry at the frame's number, if its key equals `key`. -/
def Frame.entryEqualTo [Ord κ] (frame : Frame κ ν) (key : κ) : Option (κ × ν) :=
  CountedBTree.entryEqualTo key frame.node.entries frame.number

namespace Node

mutual

/-- Go down to a leaf, letting `choose` name the child at each branch and the slot
in the leaf. -/
def descend (choose : Node κ ν → Nat) : Node κ ν → Checked (Trail κ ν)
  | leaf capacity total entries =>
      .ok [⟨leaf capacity total entries, choose (leaf capacity total entries)⟩]
  | branch capacity total entries children => do
      let number := choose (branch capacity total entries children)
      let below ← descendInto choose number children
      pure (⟨branch capacity total entries children, number⟩ :: below)

/-- Go down through the child with the given number. -/
def descendInto (choose : Node κ ν → Nat) : Nat → List (Node κ ν) → Checked (Trail κ ν)
  | _, [] => .error .childOutOfRange
  | 0, child :: _ => child.descend choose
  | number + 1, _ :: rest => descendInto choose number rest

end

/-- Follow explicit child numbers and stop at a slot that must hold an entry. -/
def follow (slot : Nat) : List Nat → Node κ ν → Checked (Trail κ ν)
  | [], node => if slot < node.size then .ok [⟨node, slot⟩] else .error .placeSlotOutOfRange
  | number :: rest, node => do
      let child ← node.childAt number
      let below ← follow slot rest child
      pure (⟨node, number⟩ :: below)

mutual

/-- Go down to the entry with `offset` entries before it, counting whole children by
what they store. In a leaf the offset is the slot. -/
def seek : Node κ ν → Nat → Checked (Trail κ ν)
  | leaf capacity total entries, offset => .ok [⟨leaf capacity total entries, offset⟩]
  | branch capacity total entries children, offset =>
      seekAmong (branch capacity total entries children) 0 children offset

/-- Walk along the children of `parent`, from the one with the given number on. A
child holding more entries than the offset contains the entry sought, one holding
exactly as many is directly followed by it, and one holding fewer is passed
together with the separator after it. -/
def seekAmong (parent : Node κ ν) (number : Nat) :
    List (Node κ ν) → Nat → Checked (Trail κ ν)
  | [], _ => .error .totalsInconsistent
  | child :: rest, offset =>
      if offset < child.total then do
        let below ← child.seek offset
        pure (⟨parent, number⟩ :: below)
      else if offset = child.total then .ok [⟨parent, number⟩]
      else seekAmong parent (number + 1) rest (offset - (child.total + 1))

end

/-- The trail to the entry at an offset, empty from the stored count on. -/
def seekOffset (node : Node κ ν) (offset : Nat) : Checked (Trail κ ν) :=
  if offset < node.total then node.seek offset else .ok []

/-- Remove the last frame of a descent when it stands in a leaf without entries. -/
def dropEmptyLeaf : Trail κ ν → Trail κ ν
  | [] => []
  | [last] => if last.node.isEmpty then [] else [last]
  | frame :: next :: rest => frame :: dropEmptyLeaf (next :: rest)

/-- The trail to the first entry of a subtree. -/
def leftmost (node : Node κ ν) : Checked (Trail κ ν) := do
  let trail ← node.descend (fun _ => 0)
  pure (dropEmptyLeaf trail)

/-- The trail to the last entry of a subtree. -/
def rightmost (node : Node κ ν) : Checked (Trail κ ν) := do
  let trail ← node.descend (fun visited =>
    if visited.isLeaf then visited.size - 1 else visited.size)
  pure (dropEmptyLeaf trail)

/-- The number of levels, found by going down through first children. -/
def height (node : Node κ ν) : Checked Nat := do
  let trail ← node.descend (fun _ => 0)
  pure trail.length

end Node

namespace Trail

/-- The last frame. -/
def last? : Trail κ ν → Option (Frame κ ν)
  | [] => none
  | [frame] => some frame
  | _ :: next :: rest => last? (next :: rest)

/-- The entry a trail leads to, none for the empty trail. -/
def entry? (trail : Trail κ ν) : Checked (Option (κ × ν)) :=
  match last? trail with
  | none => .ok none
  | some frame => do
      let entry ← frame.node.entryAt frame.number
      pure (some entry)

/-- Add what comes before the entry a trail leads to, frame by frame, to a number of
entries counted already. -/
def positionAfter (counted : Nat) : Trail κ ν → Checked (Option Nat)
  | [] => .ok none
  | [frame] => do
      let inside ← frame.node.offsetOfSlot frame.number
      let position ← checkedSum (counted + inside)
      pure (some position)
  | frame :: next :: rest => do
      let here ← frame.before
      let above ← checkedSum (counted + here)
      positionAfter above (next :: rest)

/-- How many entries of the tree come before the one the trail leads to, none for the
empty trail. -/
def position? (trail : Trail κ ν) : Checked (Option Nat) := trail.positionAfter 0

/-- Add what comes before a descent that ends at a slot of a leaf, along every frame that
before its child or slot, to a number of entries counted already. -/
def countAfter (counted : Nat) : Trail κ ν → Checked Nat
  | [] => .ok counted
  | frame :: rest => do
      let here ← frame.before
      let above ← checkedSum (counted + here)
      countAfter above rest

/-- How many entries come before a descent that ends at a slot of a leaf. -/
def countBefore (trail : Trail κ ν) : Checked Nat := trail.countAfter 0

variable [Ord κ]

/-- The value at the deepest frame whose entry has an equal key. -/
def deepestValue (key : κ) : Trail κ ν → Option ν
  | [] => none
  | frame :: rest =>
      match deepestValue key rest with
      | some value => some value
      | none => (frame.entryEqualTo key).map Prod.snd

/-- The child numbers above the deepest frame whose entry has an equal key, and the
slot of that entry. -/
def deepestMatch (key : κ) : Trail κ ν → Option (List Nat × Nat)
  | [] => none
  | frame :: rest =>
      match deepestMatch key rest with
      | some (numbers, slot) => some (frame.number :: numbers, slot)
      | none => (frame.entryEqualTo key).map (fun _ => ([], frame.number))

end Trail

end CountedBTree
