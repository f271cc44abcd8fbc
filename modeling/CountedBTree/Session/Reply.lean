import CountedBTree.Dictionary.Bookmark

/-!
# Replies

What commands answer, as values. How a reply is written down is left to whoever
writes it.
-/

namespace CountedBTree

/-- What a write gives back. -/
inductive Returned (ν : Type) where
  /-- Nothing. -/
  | nothing
  /-- The value that was replaced. -/
  | value (old : ν)
  /-- How many values were replaced. -/
  | count (replaced : Nat)
  deriving Repr

/-- What a write gives back when it replaced at most one value. -/
def Returned.ofOption {ν : Type} : Option ν → Returned ν
  | some old => .value old
  | none => .nothing

/-- A place with the entry and the offset found there. -/
structure PlaceReport (κ ν : Type) where
  /-- The place. -/
  place : Place κ ν
  /-- The entry at the place. -/
  entry : κ × ν
  /-- The offset of the entry. -/
  offset : Nat
  deriving Repr

/-- Where a trail stands, or what lies around it. -/
inductive TrailReport (κ ν : Type) where
  /-- The trail is empty. -/
  | away
  /-- The entry, its offset, and the child numbers, slot and node size behind it. -/
  | present (entry : κ × ν) (offset : Nat) (numbers : List Nat) (slot size : Nat)
  /-- The entry a step forwards, and the one a step back from there. -/
  | around (next back : Option (κ × ν))
  deriving Repr

/-- The answer to a command. -/
inductive Reply (κ ν : Type) where
  /-- The command was carried out. -/
  | done
  /-- There is nothing to answer. -/
  | nothing
  | flag (answer : Bool)
  | number (answer : Int)
  | numbers (answer : List Nat)
  | text (answer : String)
  | key (answer : κ)
  | value (answer : Option ν)
  | entry (answer : Option (κ × ν))
  | entries (answer : List (κ × ν))
  | node (answer : Node κ ν)
  | nodes (answer : List (Node κ ν))
  /-- The size, capacity and kind of a node. -/
  | nodeFacts (answer : Node κ ν)
  /-- A node that split. -/
  | divided (left : Node κ ν) (median : κ × ν) (right : Node κ ν)
  /-- A node that took an entry without splitting. -/
  | kept (answer : Node κ ν)
  /-- A node and the entry taken out of it. -/
  | taken (entry : κ × ν) (rest : Node κ ν)
  /-- A tree after a write. -/
  | status (returned : Returned ν) (size generation height : Nat)
  /-- A tree and its ends. -/
  | overview (size generation height : Nat) (first last : Option (κ × ν))
  /-- All that is known of a key. -/
  | findings (anyValue firstValue : Option ν) (present : Bool) (less notGreater : Nat)
      (place : Option (PlaceReport κ ν))
  | places (answer : List (Option (PlaceReport κ ν)))
  | placeOrder (order : Ordering) (equal : Bool)
  | orderRows (answer : List (List Ordering))
  | trails (answer : List (TrailReport κ ν))
  | pulledEntries (answer : List (Pulled (κ × ν)))
  | pulledKeys (answer : List (Pulled κ))
  | pulledValues (answer : List (Pulled ν))
  /-- A dictionary after a write. -/
  | written (returned : Returned ν) (size : Nat)
  /-- How many entries there are, and whether there are none. -/
  | extent (size : Nat) (isEmpty : Bool)
  | bookmark (answer : Bookmark κ ν)
  | bookmarkOrder (order : Ordering)
  /-- Entries with their offsets. -/
  | sights (answer : List (Nat × κ × ν))

end CountedBTree
