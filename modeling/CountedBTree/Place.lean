import CountedBTree.Trail.Walk

/-!
# Places

A place is the position of one entry that can be kept: the child numbers from the
root down, the slot, and the node that holds the entry. Unlike a trail it does not
hold the nodes above, so it has to be followed again from a root before it can
move. It says nothing about whether that root is still the one it was taken from.

Places into one tree are ordered without looking at the tree. Inside a node, child
`c` lies before entry `c`, so children take the even ranks and entries the odd ones,
and places are compared rank by rank from the root down. An entry of a branch thereby
falls between the two children around it, at whatever depth the other place ends. Ranks
are machine words as long as no node has 2^63 entries, which only entries that take no
memory could make up.
-/

namespace CountedBTree

/-- The position of one entry. -/
structure Place (κ ν : Type) where
  /-- The numbers of the children taken, from the root down. -/
  numbers : List Nat
  /-- The slot of the entry in the node reached. -/
  slot : Nat
  /-- The node reached. -/
  node : Node κ ν
  deriving Repr

namespace Place

variable {κ ν : Type}

/-- The place a trail leads to, none for the empty trail. -/
def ofTrail : Trail κ ν → Option (Place κ ν)
  | [] => none
  | [frame] => some ⟨[], frame.number, frame.node⟩
  | frame :: next :: rest =>
      (ofTrail (next :: rest)).map (fun place =>
        { place with numbers := frame.number :: place.numbers })

/-- Follow a place from a root. -/
def trail (place : Place κ ν) (root : Node κ ν) : Checked (Trail κ ν) :=
  root.follow place.slot place.numbers

/-- The number of levels between the root and the node that holds the entry. -/
def depth (place : Place κ ν) : Nat := place.numbers.length

/-- The entry at the place. -/
def entry (place : Place κ ν) : Checked (κ × ν) := place.node.entryAt place.slot

/-- The place a number of entries away, as long as it is in the same leaf. -/
def shiftedInLeaf (place : Place κ ν) (distance : Int) : Option (Place κ ν) :=
  let target : Int := place.slot + distance
  if place.node.isLeaf && decide (0 ≤ target) && decide (target < place.node.size) then
    some { place with slot := target.toNat }
  else none

/-- The place of the next entry, none at the last one. -/
def advanced (place : Place κ ν) (root : Node κ ν) : Checked (Option (Place κ ν)) := do
  let here ← place.trail root
  let moved ← here.next
  pure (ofTrail moved)

/-- The place of the previous entry, none at the first one. -/
def retreated (place : Place κ ν) (root : Node κ ν) : Checked (Option (Place κ ν)) := do
  let here ← place.trail root
  let moved ← here.prev
  pure (ofTrail moved)

/-- Where the place lies on a level, among the positions of the node it passes there: on an
even rank for a child taken, and on the odd rank of its entry in the node reached. -/
def rankAt (place : Place κ ν) (level : Nat) : Nat :=
  match place.numbers[level]? with
  | some number => 2 * number
  | none => 2 * place.slot + 1

/-- Compare the ranks of two places on a number of levels from the given one on. The first
difference decides. -/
def compareFrom (left right : Place κ ν) (level : Nat) : Nat → Ordering
  | 0 => .eq
  | more + 1 =>
      match compare (left.rankAt level) (right.rankAt level) with
      | .eq => compareFrom left right (level + 1) more
      | apart => apart

/-- Places are ordered by their ranks, level by level as far as both reach. -/
instance : Ord (Place κ ν) where
  compare left right := left.compareFrom right 0 (min left.depth right.depth + 1)

/-- Places are equal when they follow the same children to the same slot. -/
instance : BEq (Place κ ν) where
  beq left right := left.slot == right.slot && left.numbers == right.numbers

end Place

end CountedBTree
