import CountedBTree.Place

/-!
# Drains

A drain goes over all entries of a tree from either end, like a sweep, but keeps
only places: each step follows a place again from the root. That makes it
independent of the tree it was taken from, apart from the root it holds.
-/

namespace CountedBTree

/-- The entries left between two places. -/
structure Drain (κ ν : Type) where
  /-- The root that places are followed from. -/
  root : Node κ ν
  /-- The place of the next entry to take from the front. -/
  front : Option (Place κ ν)
  /-- The place of the next entry to take from the back. -/
  back : Option (Place κ ν)
  /-- The number of entries left. -/
  remaining : Nat
  deriving Repr

namespace Drain

variable {κ ν : Type}

/-- The drain over all entries below a root. -/
def ofRoot (root : Node κ ν) : Checked (Drain κ ν) := do
  let first ← root.leftmost
  let last ← root.rightmost
  pure ⟨root, Place.ofTrail first, Place.ofTrail last, root.total⟩

/-- Take an entry from the front. -/
def next (drain : Drain κ ν) : Checked (Option (κ × ν) × Drain κ ν) :=
  match drain.remaining, drain.front with
  | 0, _ => .ok (none, drain)
  | _ + 1, none => .ok (none, drain)
  | 1, some place => do
      let entry ← place.entry
      pure (some entry, { drain with front := none, remaining := 0 })
  | left + 2, some place => do
      let front ← place.advanced drain.root
      let entry ← place.entry
      pure (some entry, { drain with front := front, remaining := left + 1 })

/-- Take an entry from the back. -/
def prev (drain : Drain κ ν) : Checked (Option (κ × ν) × Drain κ ν) :=
  match drain.remaining, drain.back with
  | 0, _ => .ok (none, drain)
  | _ + 1, none => .ok (none, drain)
  | 1, some place => do
      let entry ← place.entry
      pure (some entry, { drain with back := none, remaining := 0 })
  | left + 2, some place => do
      let back ← place.retreated drain.root
      let entry ← place.entry
      pure (some entry, { drain with back := back, remaining := left + 1 })

end Drain

end CountedBTree
