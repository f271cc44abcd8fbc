import CountedBTree.Scalar.Folded
import CountedBTree.Scalar.Reading
import CountedBTree.Text.Listing

/-!
# Scalars and sample entries

The kinds of key and value that sessions work with: numbers, texts, folded texts and
readings. Each has a text, and each can be made from a number, so that a long run of
entries can be described by how its key numbers go on.
-/

namespace CountedBTree

instance : Listed Int := ⟨fun value => toString value⟩

instance : Listed String := ⟨Text.quoted⟩

instance : Listed Folded := ⟨fun folded => Text.quoted folded.text⟩

instance : Listed Reading where
  listing
    | .number value => toString value
    | .missing => "nan"

/-- Keys that can be made from a number. The position in the run is known as well. -/
class SampleKey (κ : Type) where
  /-- The key with the given number at the given position. -/
  sampleKey : Nat → Int → κ

/-- Values that can be made from a position in a run. -/
class SampleValue (ν : Type) where
  /-- The value at the given position. -/
  sampleValue : Nat → ν

instance : SampleKey Int := ⟨fun _ number => number⟩

instance : SampleKey String := ⟨fun _ number => toString number⟩

/-- Folded keys alternate between two spellings of their first letter. -/
instance : SampleKey Folded where
  sampleKey position number :=
    ⟨(if position % 2 = 0 then "k" else "K") ++ toString number⟩

instance : SampleValue Int := ⟨fun position => (position : Int)⟩

instance : SampleValue String := ⟨fun position => "v" ++ toString position⟩

instance : SampleValue Reading := ⟨fun position => .number position⟩

/-- A run of entries whose key numbers go round in steps. -/
structure SampleRun where
  /-- The number of entries; below zero there are none. -/
  count : Int
  /-- The number the keys start from. -/
  start : Int
  /-- The step from one entry to the next. -/
  step : Int
  /-- Where the steps wrap around. -/
  modulus : Int
  deriving DecidableEq, Repr

namespace SampleRun

/-- Numbers are signed machine words of 64 bits; others are refused for the given
cause. -/
def word (cause : Fault) (number : Int) : Checked Int :=
  if -0x8000000000000000 ≤ number ∧ number < 0x8000000000000000 then .ok number
  else .error cause

/-- The key number at a position. The remainder takes the sign of the product of
position and step. It is found by a division, whose quotient is a machine word too. -/
def keyNumber (run : SampleRun) (position : Nat) : Checked Int := do
  let product ← word .productTooLarge ((position : Int) * run.step)
  if run.modulus = 0 then throw .zeroModulus
  let _ ← word .quotientTooLarge (Int.tdiv product run.modulus)
  word .sumTooLarge (run.start + Int.tmod product run.modulus)

/-- The entry at a position. -/
def entryAt {κ ν : Type} [SampleKey κ] [SampleValue ν] (run : SampleRun) (position : Nat) :
    Checked (κ × ν) := do
  let number ← run.keyNumber position
  pure (SampleKey.sampleKey position number, SampleValue.sampleValue position)

/-- The entries from a position on, a number of them, after those gathered already, the
last one first. The first entry that is refused ends the run. -/
def gather {κ ν : Type} [SampleKey κ] [SampleValue ν] (run : SampleRun) :
    Nat → Nat → List (κ × ν) → Checked (List (κ × ν))
  | 0, _, gathered => .ok gathered.reverse
  | more + 1, position, gathered =>
      match run.entryAt position with
      | .error cause => .error cause
      | .ok entry => gather run more (position + 1) (entry :: gathered)

/-- The entries of a run. -/
def entries {κ ν : Type} [SampleKey κ] [SampleValue ν] (run : SampleRun) :
    Checked (List (κ × ν)) :=
  run.gather run.count.toNat 0 []

end SampleRun

end CountedBTree
