import CountedBTree.Dictionary.Basic

/-!
# Entry streams

A byte string is read as a stream of entries. A flag byte comes before each entry;
when its lowest bit is set, an entry follows: one byte for the key and two for the
value, the low byte first. A flag with the lowest bit clear ends the stream. Bytes
past the end read as zero, so the stream always ends, and a record cut short is
filled up with zeros.
-/

namespace CountedBTree

namespace EntryStream

/-- The value of two bytes, the low one first. -/
def word (low high : UInt8) : UInt16 := low.toUInt16 + 256 * high.toUInt16

/-- Read a stream. Answers its entries and the bytes not read. -/
def read : List UInt8 → List (UInt8 × UInt16) × List UInt8
  | [] => ([], [])
  | flag :: rest =>
      if flag % 2 = 0 then ([], rest)
      else
        match rest with
        | [] => ([(0, 0)], [])
        | [key] => ([(key, 0)], [])
        | [key, low] => ([(key, word low 0)], [])
        | key :: low :: high :: more =>
            let (entries, unread) := read more
            ((key, word low high) :: entries, unread)

/-- The dictionary of a stream, and the bytes not read. Later values replace earlier
ones of the same key. -/
def readDictionary (bytes : List UInt8) (state : Stamp) :
    Traced Fault (Dictionary UInt8 UInt16 × List UInt8) := do
  let (entries, unread) := read bytes
  let dictionary ← Dictionary.ofList entries state
  pure (dictionary, unread)

/-- The dictionary of a stream that is given all its bytes for good. What it does not read is
lost. -/
def readAll (bytes : List UInt8) (state : Stamp) : Traced Fault (Dictionary UInt8 UInt16) := do
  let (dictionary, _) ← readDictionary bytes state
  pure dictionary

/-- How deep the request for a size hint may be nested before none is given. -/
def hintDepthLimit : Nat := 20

/-- The least number of bytes a length takes. -/
def lengthSize : Nat := 8

/-- Bounds on the bytes that reading asks for: a lower one, and an upper one where there
is one. -/
def sizeHint (depth : Nat) : Nat × Option Nat :=
  if depth > hintDepthLimit then (0, none) else (lengthSize, none)

end EntryStream

end CountedBTree
