/-!
# Stamps

Values alone cannot tell whether a dictionary was written to and written back. A
stamp names one state, by the place of its root in memory. A copy keeps the stamp of
what it was copied from, and so does a bookmark, and holders of one stamp hold the
same root. A write takes a stamp that nobody beside the dictionary holds at that
moment. It may be the one the dictionary had, if its root is not shared, or one that
was given up, so a stamp can come back, but never while something else holds it.

Stamps are handed out by whoever runs a sequence of operations. Counting upwards is a
way to do it in which none comes back.
-/

namespace CountedBTree

/-- The name of one state. -/
structure Stamp where
  /-- The number of the place, or the count at which the stamp was handed out. -/
  number : Nat
  deriving DecidableEq, Repr

/-- The stamp handed out a number of times later. -/
def Stamp.later (stamp : Stamp) (times : Nat) : Stamp := ⟨stamp.number + times⟩

/-- The stamp to hand out after this one. -/
def Stamp.succ (stamp : Stamp) : Stamp := stamp.later 1

/-- A value together with the name of its state. -/
structure Stamped (α : Type) where
  /-- The value. -/
  value : α
  /-- The name of the state it is in. -/
  stamp : Stamp
  deriving Repr

end CountedBTree
