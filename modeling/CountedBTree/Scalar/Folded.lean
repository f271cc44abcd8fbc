import CountedBTree.Footprint

/-!
# Texts compared without regard to letter case

A folded text keeps its spelling but is compared with its ASCII letters in lower
case. Equal texts may therefore be spelled differently, and which of several
spellings a container keeps can be seen.
-/

namespace CountedBTree

/-- A text compared without regard to the case of its ASCII letters. -/
structure Folded where
  /-- The spelling. -/
  text : String
  deriving Repr

namespace Folded

/-- The text by which it is compared. -/
def fold (folded : Folded) : String := folded.text.map Char.toLower

/-- A folded text is kept as a text. -/
instance : Footprint Folded := ⟨Footprint.bytes String⟩

instance : Ord Folded where
  compare left right := compare left.fold right.fold

instance : BEq Folded where
  beq left right := left.fold == right.fold

end Folded

end CountedBTree
