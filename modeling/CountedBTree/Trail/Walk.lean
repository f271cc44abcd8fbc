import CountedBTree.Trail.Basic

/-!
# Walking along a tree

A step moves a trail to the next or to the previous entry in order. At an entry of
a branch the neighbour lies in the child beside the entry, at its near end. In a
leaf it is the neighbouring slot while there is one; past the last slot the step
climbs to the closest frame above that still has an entry on that side. A frame on
the way carries the number of the child taken, which is also the slot of the
separator after that child, so the climb needs no further search.

Stepping past either end leaves the empty trail, which no step leaves again.
-/

namespace CountedBTree

variable {κ ν : Type}

namespace Trail

/-- Move to the next entry in order. -/
def next : Trail κ ν → Checked (Trail κ ν)
  | [] => .ok []
  | [frame] =>
      if frame.node.isLeaf then
        if frame.number + 1 < frame.node.size then .ok [⟨frame.node, frame.number + 1⟩]
        else .ok []
      else do
        let child ← frame.node.childAt (frame.number + 1)
        let below ← child.leftmost
        pure (⟨frame.node, frame.number + 1⟩ :: below)
  | frame :: below :: rest => do
      let moved ← next (below :: rest)
      match moved with
      | [] => pure (if frame.number < frame.node.size then [frame] else [])
      | _ => pure (frame :: moved)

/-- Move to the previous entry in order. -/
def prev : Trail κ ν → Checked (Trail κ ν)
  | [] => .ok []
  | [frame] =>
      if frame.node.isLeaf then
        if 0 < frame.number then .ok [⟨frame.node, frame.number - 1⟩] else .ok []
      else do
        let child ← frame.node.childAt frame.number
        let below ← child.rightmost
        pure (frame :: below)
  | frame :: below :: rest => do
      let moved ← prev (below :: rest)
      match moved with
      | [] => pure (if 0 < frame.number then [⟨frame.node, frame.number - 1⟩] else [])
      | _ => pure (frame :: moved)

end Trail

end CountedBTree
