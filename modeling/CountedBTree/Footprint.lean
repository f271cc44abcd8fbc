import CountedBTree.Fault

/-!
# Footprints

A node sets aside the room for all its entries when it is made, in one piece of memory
for the keys and one for the values, and a branch in a third one for its children. A
piece has fewer than 2^63 bytes. So how much room a node can have depends on what one key
and one value take, which their types decide: elements that take no bytes always fit.

That the machine has so much memory to give is another matter. Where it has not, the
program ends without an answer or a refusal, and nothing is said about it here.
-/

namespace CountedBTree

/-- What one element of a type takes where it is stored. What it refers to elsewhere does
not count. -/
class Footprint (α : Type) where
  /-- The number of bytes. -/
  bytes : Nat

/-- Numbers are kept as machine words. -/
instance : Footprint Nat := ⟨8⟩

instance : Footprint Int := ⟨8⟩

instance : Footprint UInt8 := ⟨1⟩

instance : Footprint UInt16 := ⟨2⟩

instance : Footprint Unit := ⟨0⟩

/-- A text is kept as the place of its letters, their number, and the room for them. -/
instance : Footprint String := ⟨24⟩

/-- A piece of memory has fewer bytes than this. -/
def pieceLimit : Nat := 0x8000000000000000

/-- A child is kept as the place of a node. -/
def childBytes : Nat := 8

/-- Refuse a number of elements that no piece of memory holds. -/
def checkPiece (count bytes : Nat) : Checked Unit :=
  if count * bytes < pieceLimit then .ok () else .error .capacityTooLarge

end CountedBTree
