import CountedBTree.Tree.Write

/-!
# Copies of shared nodes

Trees share nodes. A node that somebody else holds as well, be it another tree or a bookmark,
is copied before it is written to, and the copy is reported. A write copies on its way down,
before it does anything else. The copy of a node holds the same children, so below a node that
was copied every node on the way is held twice by then and is copied, too.

Copies change nothing about a tree, neither its entries nor its shape, and who holds which node
cannot be told from a tree. The writes therefore leave them out of what they report. This module
says what they report of them, given whether somebody else holds the nodes on the way.
-/

namespace CountedBTree

variable {κ ν : Type}

/-- The report of a copy. -/
def Node.copyEvent (node : Node κ ν) : Event := .copied node.size node.isLeaf

/-- The nodes from one down to the one under the given child numbers. -/
def Node.along : List Nat → Node κ ν → List (Node κ ν)
  | [], node => [node]
  | number :: rest, node =>
      node ::
        match node.children[number]? with
        | some child => child.along rest
        | none => []

/-- The copies made along a way, where `held` says of a depth whether somebody else held the
node there before the write, and `above` whether the node above was copied. -/
def copiesAlong (held : Nat → Bool) : Nat → Bool → List (Node κ ν) → List Event
  | _, _, [] => []
  | depth, above, node :: rest =>
      if above || held depth then node.copyEvent :: copiesAlong held (depth + 1) true rest
      else copiesAlong held (depth + 1) false rest

namespace Tree

/-- The copies that a write makes along a way from the root, if it can be counted. -/
def copies (tree : Tree κ ν) (held : Nat → Bool) (way : List (Node κ ν)) : List Event :=
  match tree.checkGeneration with
  | .ok _ => copiesAlong held 0 false way
  | .error _ => []

variable [Ord κ]

/-- The nodes that an insertion of a key goes down through. -/
def wayBehind (tree : Tree κ ν) (key : κ) : List (Node κ ν) :=
  match tree.descendAfter key with
  | .ok trail => trail.map Frame.node
  | .error _ => []

/-- The nodes down to the first entry with an equal key, if there is one. -/
def wayToFirst (tree : Tree κ ν) (key : κ) : Option (List (Node κ ν)) :=
  match tree.locateFirst key with
  | .ok (some (numbers, _)) => some (tree.root.along numbers)
  | _ => none

end Tree

end CountedBTree
