import CountedBTree.Footprint

/-!
# Readings

A reading is a number or the mark that there is none. Numbers are equal as numbers;
a missing reading equals nothing, not even another missing one, so equality of
readings is not reflexive.
-/

namespace CountedBTree

/-- A number, or the mark that there is none. -/
inductive Reading where
  /-- A number that was read. -/
  | number (value : Int)
  /-- Nothing could be read. -/
  | missing
  deriving Repr

/-- A reading is kept as a number and, beside it, whether there is one. -/
instance : Footprint Reading := ⟨16⟩

/-- Equal numbers are equal readings, and nothing else is. -/
instance : BEq Reading where
  beq
    | .number left, .number right => left == right
    | _, _ => false

end CountedBTree
