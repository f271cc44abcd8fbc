import CountedBTree.Node.Insertion
import CountedBTree.Tree.Lookup

/-!
# Writing to a tree

An insertion goes down to the leaf after every entry whose key is not greater, so
equal keys stay in the order in which they arrived. What happened in the leaf is
then handed up the same trail. A node that split hands its median and right half to
its parent as an entry and right child, and the parent may split in turn; a parent
that need not take anything only counts one entry more. When the root itself split,
the tree grows by one level.

An updating insertion replaces the value of the last entry with an equal key, if
there is one. That entry directly precedes the place where the key would be
inserted, but it need not be in the leaf: with no equal key there, the update is
handed up to the deepest equal separator passed on the way.

Every write raises the generation by one before it does anything else. A generation that
no machine word follows is the end of writing to the tree.
-/

namespace CountedBTree

variable {κ ν : Type}

/-- What a subtree hands up after an insertion below it. -/
inductive Upshot (κ ν : Type) where
  /-- The subtree took the entry. -/
  | inserted (node : Node κ ν)
  /-- The subtree replaced a value. -/
  | replaced (node : Node κ ν) (old : ν)
  /-- The subtree is unchanged; a separator above is the last entry with an equal
  key and should take the value. -/
  | deferred
  /-- The subtree split and its parent should take the median and the right half. -/
  | split (left : Node κ ν) (median : κ × ν) (right : Node κ ν)
  deriving Repr

/-- How an insertion into one node looks from above. -/
def Upshot.ofInsertion : Insertion κ ν → Upshot κ ν
  | .kept node => .inserted node
  | .split left median right => .split left median right

/-- Whether the entry just before the frame's number has an equal key. -/
def Frame.followsEqual [Ord κ] (frame : Frame κ ν) (key : κ) : Bool :=
  match frame.number with
  | 0 => false
  | number + 1 => (CountedBTree.entryEqualTo key frame.node.entries number).isSome

/-- Replace the value of the entry just before the frame's number. -/
def Frame.replaceBefore (frame : Frame κ ν) (value : ν) : Checked (Upshot κ ν) := do
  let (old, node) ← frame.node.changeValue (frame.number - 1) (fun _ => value)
  pure (.replaced node old)

/-- Settle one frame of a branch with what the child taken there handed up. -/
def Frame.settle [Ord κ] (frame : Frame κ ν) (value : ν) (here : Bool) :
    Upshot κ ν → Traced Fault (Upshot κ ν)
  | .inserted child => do
      let counted ← (frame.node.withChild frame.number child).countInsertion
      pure (.inserted counted)
  | .replaced child old => pure (.replaced (frame.node.withChild frame.number child) old)
  | .deferred => if here then frame.replaceBefore value else pure .deferred
  | .split left median right => do
      let insertion ← (frame.node.withChild frame.number left).insertAt frame.number median right
      pure (.ofInsertion insertion)

namespace Trail

variable [Ord κ]

/-- Insert an entry at the end of a descent and hand the outcome up to its first
frame. With `update` set, the last entry with an equal key takes the value instead;
`above` says that a separator passed before this frame has an equal key. -/
def insert (key : κ) (value : ν) (update : Bool) :
    Bool → Trail κ ν → Traced Fault (Upshot κ ν)
  | _, [] => Traced.refuse .childOutOfRange
  | above, frame :: rest => do
      let here := update && frame.followsEqual key
      if frame.node.isLeaf then
        if here then frame.replaceBefore value
        else if above then pure .deferred
        else
          let insertion ← frame.node.insertAt frame.number (key, value) none
          pure (.ofInsertion insertion)
      else
        let upshot ← insert key value update (above || here) rest
        frame.settle value here upshot

end Trail

namespace Tree

/-- Refuse a write that could not be counted. -/
def checkGeneration (tree : Tree κ ν) : Checked Unit := do
  let _ ← checkedSum (tree.generation + 1)
  pure ()

/-- The same tree with another root, one write later. -/
def written (tree : Tree κ ν) (root : Node κ ν) : Tree κ ν :=
  { tree with root := root, generation := tree.generation + 1 }

/-- Put a new root over the two halves of a root that split. -/
def grow [Footprint κ] [Footprint ν] (tree : Tree κ ν) (left : Node κ ν) (median : κ × ν)
    (right : Node κ ν) : Traced Fault (Tree κ ν) := do
  let root ← Node.join left median right tree.capacities.branch
  let grown := tree.written root
  let height ← grown.height
  Traced.report (.grew height grown.size)
  pure grown

/-- Apply a function to the value of the entry under the given child numbers and slot,
and answer the value it replaced. -/
def changeValueAlong (tree : Tree κ ν) (numbers : List Nat) (slot : Nat) (change : ν → ν) :
    Checked (ν × Tree κ ν) := do
  tree.checkGeneration
  let (old, root) ← tree.root.changeValueAlong change slot numbers
  pure (old, tree.written root)

/-- Replace the value at a place of this tree and answer the old value. -/
def setValue (tree : Tree κ ν) (place : Place κ ν) (value : ν) : Checked (ν × Tree κ ν) :=
  tree.changeValueAlong place.numbers place.slot (fun _ => value)

variable [Ord κ]

/-- Apply a function to the value of the first entry with an equal key and answer the
value it replaced. Without such an entry there is no write. -/
def changeFirst (tree : Tree κ ν) (key : κ) (change : ν → ν) :
    Checked (Option (ν × Tree κ ν)) := do
  let found ← tree.locateFirst key
  match found with
  | none => pure none
  | some (numbers, slot) =>
      let written ← tree.changeValueAlong numbers slot change
      pure (some written)

variable [Footprint κ] [Footprint ν]

/-- Insert an entry after every entry whose key is not greater. -/
def insertKey (tree : Tree κ ν) (key : κ) (value : ν) : Traced Fault (Tree κ ν) := do
  tree.checkGeneration
  let trail ← tree.descendAfter key
  let upshot ← trail.insert key value false false
  match upshot with
  | .inserted root => pure (tree.written root)
  | .split left median right => tree.grow left median right
  | .replaced _ _ => Traced.refuse .insertionUpdated
  | .deferred => Traced.refuse .insertionUpdated

/-- Replace the value of the last entry with an equal key and answer the old value, or
insert a new entry after every smaller one. -/
def insertOrUpdate (tree : Tree κ ν) (key : κ) (value : ν) :
    Traced Fault (Option ν × Tree κ ν) := do
  tree.checkGeneration
  let trail ← tree.descendAfter key
  let upshot ← trail.insert key value true false
  match upshot with
  | .inserted root => pure (none, tree.written root)
  | .replaced root old => pure (some old, tree.written root)
  | .deferred => Traced.refuse .updateUnclaimed
  | .split left median right => do
      let grown ← tree.grow left median right
      pure (none, grown)

/-- Replace the value of the first entry with an equal key and answer the old value, or
insert a new entry after every entry whose key is not greater. -/
def updateFirstOrInsert (tree : Tree κ ν) (key : κ) (value : ν) :
    Traced Fault (Option ν × Tree κ ν) := do
  let written ← tree.changeFirst key (fun _ => value)
  match written with
  | some (old, changed) => pure (some old, changed)
  | none => do
      let inserted ← tree.insertKey key value
      pure (none, inserted)

/-- Insert entries one by one, each after every entry whose key is not greater. -/
def insertAll (tree : Tree κ ν) (entries : List (κ × ν)) : Traced Fault (Tree κ ν) :=
  entries.foldlM (fun current entry => current.insertKey entry.1 entry.2) tree

end Tree

end CountedBTree
