/-!
# Key bounds

A range of keys is given by two bounds, each including its key, excluding it, or
absent. Over a sorted run every such range is a run of consecutive offsets, and the
two counts "keys less than" and "keys not greater than" find its ends. A range whose
ends cross is empty and keeps the start it asked for.
-/

namespace CountedBTree

/-- One end of a range of keys. -/
inductive Bound (κ : Type) where
  /-- The range includes this key. -/
  | included (key : κ)
  /-- The range ends just beside this key. -/
  | excluded (key : κ)
  /-- The range has no end on this side. -/
  | unbounded
  deriving Repr

/-- The offsets of a range: from `start` up to, but not including, `stop`. -/
structure OffsetRange where
  /-- The first offset. -/
  start : Nat
  /-- The offset after the last. -/
  stop : Nat
  deriving DecidableEq, Repr

namespace Bound

variable {κ : Type}

/-- The number of entries before a range that starts at this bound. -/
def startOffset {m : Type → Type} [Monad m] (less notGreater : κ → m Nat) :
    Bound κ → m Nat
  | included key => less key
  | excluded key => notGreater key
  | unbounded => pure 0

/-- The number of entries before the end of a range that stops at this bound. -/
def stopOffset {m : Type → Type} [Monad m] (size : Nat) (less notGreater : κ → m Nat) :
    Bound κ → m Nat
  | included key => notGreater key
  | excluded key => less key
  | unbounded => pure size

end Bound

/-- The offsets whose keys satisfy both bounds, among `size` entries of which
`less key` have a smaller key and `notGreater key` a key that is not greater. -/
def OffsetRange.between {κ : Type} {m : Type → Type} [Monad m] (low high : Bound κ)
    (size : Nat) (less notGreater : κ → m Nat) : m OffsetRange := do
  let start ← low.startOffset less notGreater
  let stop ← high.stopOffset size less notGreater
  pure ⟨start, max stop start⟩

/-- The offsets between two bounds in a sorted list of keys. -/
def OffsetRange.inSorted {κ : Type} [Ord κ] (keys : List κ) (low high : Bound κ) :
    OffsetRange :=
  Id.run (OffsetRange.between low high keys.length
    (fun key => pure (keys.countP (fun other => (compare other key).isLT)))
    (fun key => pure (keys.countP (fun other => (compare other key).isLE))))

end CountedBTree
