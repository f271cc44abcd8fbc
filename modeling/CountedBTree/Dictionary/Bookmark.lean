import CountedBTree.Dictionary.Basic

/-!
# Bookmarks

A bookmark is a position in a dictionary: an entry, or the end just past the last
entry. It remembers the state of the dictionary that issued it, by stamp and by
generation, and every use checks it against the dictionary at hand. A dictionary
accepts the bookmarks of its current state only. Copies share that state until one
of them is written to, so they accept each other's bookmarks until then.

Bookmarks move by single steps and by jumps. A jump with a limit answers none when
the limit lies on the way. Distances between bookmarks are integers. A program has a
signed machine word for each, which is enough, as no memory holds a dictionary of 2^63
entries.
-/

namespace CountedBTree

/-- A position in a dictionary. -/
structure Bookmark (κ ν : Type) where
  /-- The place of the entry, none for the end. -/
  place : Option (Place κ ν)
  /-- The stamp of the state that issued it. -/
  state : Stamp
  /-- The generation of the state that issued it. -/
  generation : Nat
  deriving Repr

namespace Bookmark

variable {κ ν : Type}

/-- Whether this is the end. -/
def isEnd (bookmark : Bookmark κ ν) : Bool := bookmark.place.isNone

/-- Whether two bookmarks were issued in one state. -/
def sameState (first second : Bookmark κ ν) : Bool :=
  first.state == second.state && first.generation == second.generation

/-- The order of two bookmarks of one state, the end after all entries. Bookmarks of
different states have no order. -/
def order (first second : Bookmark κ ν) : Checked Ordering :=
  if first.sameState second then
    match first.place, second.place with
    | some left, some right => .ok (compare left right)
    | some _, none => .ok .lt
    | none, some _ => .ok .gt
    | none, none => .ok .eq
  else .error .incomparableBookmarks

end Bookmark

namespace Dictionary

variable {κ ν : Type}

/-- A bookmark of the current state. -/
def issue (dictionary : Dictionary κ ν) (place : Option (Place κ ν)) : Bookmark κ ν :=
  ⟨place, dictionary.state, dictionary.tree.generation⟩

/-- Whether a bookmark belongs to the current state. -/
def accepts (dictionary : Dictionary κ ν) (bookmark : Bookmark κ ν) : Bool :=
  bookmark.state == dictionary.state && bookmark.generation == dictionary.tree.generation

/-- Refuse a bookmark of another state. -/
def validate (dictionary : Dictionary κ ν) (bookmark : Bookmark κ ν) : Checked Unit :=
  if dictionary.accepts bookmark then .ok () else .error .staleBookmark

/-- The place of a bookmark that must be valid and must not be the end. -/
def placeOf (dictionary : Dictionary κ ν) (bookmark : Bookmark κ ν) : Checked (Place κ ν) := do
  dictionary.validate bookmark
  match bookmark.place with
  | some place => pure place
  | none => throw .endBookmark

/-- The bookmark of the first entry, which is the end when there is none. -/
def startBookmark (dictionary : Dictionary κ ν) : Checked (Bookmark κ ν) := do
  let place ← dictionary.tree.firstPlace
  pure (dictionary.issue place)

/-- The bookmark of the end. -/
def endBookmark (dictionary : Dictionary κ ν) : Bookmark κ ν := dictionary.issue none

/-- The bookmark of the next entry. The end has none. -/
def bookmarkAfter (dictionary : Dictionary κ ν) (bookmark : Bookmark κ ν) :
    Checked (Bookmark κ ν) := do
  let place ← dictionary.placeOf bookmark
  let moved ← place.advanced dictionary.tree.root
  pure (dictionary.issue moved)

/-- The bookmark of the previous entry. The first entry, or the end of an empty
dictionary, has none. -/
def bookmarkBefore (dictionary : Dictionary κ ν) (bookmark : Bookmark κ ν) :
    Checked (Bookmark κ ν) := do
  dictionary.validate bookmark
  let moved ← match bookmark.place with
    | some place => place.retreated dictionary.tree.root
    | none => dictionary.tree.lastPlace
  match moved with
  | some place => pure (dictionary.issue (some place))
  | none => throw .beforeStart

/-- The bookmark at an offset, the end at the size. -/
def bookmarkAt (dictionary : Dictionary κ ν) (offset : Nat) : Checked (Bookmark κ ν) := do
  unless offset ≤ dictionary.size do throw .bookmarkOffsetOutOfRange
  if offset = dictionary.size then pure dictionary.endBookmark
  else
    let place ← dictionary.tree.placeAt offset
    pure (dictionary.issue (some place))

/-- The offset of a bookmark, the size for the end. -/
def offsetOf (dictionary : Dictionary κ ν) (bookmark : Bookmark κ ν) : Checked Nat := do
  dictionary.validate bookmark
  match bookmark.place with
  | some place => dictionary.tree.offsetOf place
  | none => pure dictionary.size

/-- The number of steps from one bookmark to another, negative backwards. -/
def distance (dictionary : Dictionary κ ν) (start stop : Bookmark κ ν) : Checked Int := do
  let there ← dictionary.offsetOf stop
  let here ← dictionary.offsetOf start
  pure ((there : Int) - (here : Int))

/-- The bookmark a number of steps away, backwards when negative. Within a leaf only
the slot changes; anything further is found by its offset. -/
def jump (dictionary : Dictionary κ ν) (bookmark : Bookmark κ ν) (steps : Int) :
    Checked (Bookmark κ ν) := do
  let here ← dictionary.offsetOf bookmark
  let target : Int := here + steps
  unless 0 ≤ target ∧ target ≤ dictionary.size do throw .jumpOutOfRange
  if target = dictionary.size then pure dictionary.endBookmark
  else
    match bookmark.place.bind (fun place => place.shiftedInLeaf steps) with
    | some place => pure (dictionary.issue (some place))
    | none =>
        let place ← dictionary.tree.placeAt target.toNat
        pure (dictionary.issue (some place))

/-- Whether a jump of some steps would pass a limit this many steps away. Standing on
the limit at the start counts as passing it, landing on it does not. -/
def passes (steps toLimit : Int) : Bool :=
  if 0 ≤ steps then decide (0 ≤ toLimit ∧ toLimit < steps)
  else decide (steps + 1 ≤ toLimit ∧ toLimit ≤ 0)

/-- The bookmark a number of steps away, or none when the jump would pass the limit.
The limit is looked at first, so a jump it stops may lead outside. -/
def jumpWithin (dictionary : Dictionary κ ν) (bookmark : Bookmark κ ν) (steps : Int)
    (limit : Bookmark κ ν) : Checked (Option (Bookmark κ ν)) := do
  let toLimit ← dictionary.distance bookmark limit
  if passes steps toLimit then pure none
  else
    let moved ← dictionary.jump bookmark steps
    pure (some moved)

/-- The entry at a bookmark, which must not be the end. -/
def entryAt (dictionary : Dictionary κ ν) (bookmark : Bookmark κ ν) : Checked (κ × ν) := do
  let place ← dictionary.placeOf bookmark
  let trail ← place.trail dictionary.tree.root
  let entry ← trail.entry?
  match entry with
  | some found => pure found
  | none => throw .bookmarkWithoutEntry

/-- Replace the value at a bookmark and answer the old value. This is a write, so no
bookmark issued before it stays valid. -/
def setValueAt (dictionary : Dictionary κ ν) (bookmark : Bookmark κ ν) (value : ν)
    (state : Stamp) : Checked (ν × Dictionary κ ν) := do
  let place ← dictionary.placeOf bookmark
  let (old, tree) ← dictionary.tree.setValue place value
  pure (old, ⟨tree, state⟩)

/-- The bookmark of the first entry with an equal key. -/
def bookmarkOf [Ord κ] (dictionary : Dictionary κ ν) (key : κ) :
    Checked (Option (Bookmark κ ν)) := do
  let place ← dictionary.tree.findFirst key
  pure (place.map (fun found => dictionary.issue (some found)))

/-- Take up to a number of steps forwards, stopping at the end. -/
def stepsAfter (dictionary : Dictionary κ ν) : Nat → Bookmark κ ν → Checked (Bookmark κ ν)
  | 0, bookmark => .ok bookmark
  | steps + 1, bookmark =>
      if bookmark.isEnd then .ok bookmark
      else do
        let moved ← dictionary.bookmarkAfter bookmark
        stepsAfter dictionary steps moved

/-- Take up to a number of steps backwards, stopping at `start`. -/
def stepsBefore (dictionary : Dictionary κ ν) (start : Bookmark κ ν) :
    Nat → Bookmark κ ν → Checked (Bookmark κ ν)
  | 0, bookmark => .ok bookmark
  | steps + 1, bookmark => do
      let order ← bookmark.order start
      if order.isEq then pure bookmark
      else
        let moved ← dictionary.bookmarkBefore bookmark
        stepsBefore dictionary start steps moved

/-- The offset and entry at a bookmark. -/
def sight (dictionary : Dictionary κ ν) (bookmark : Bookmark κ ν) : Checked (Nat × κ × ν) := do
  let offset ← dictionary.offsetOf bookmark
  let entry ← dictionary.entryAt bookmark
  pure (offset, entry)

/-- Stride forwards from a bookmark until the end, recording what is there before each
stride. The first argument bounds the number of strides. -/
def strideForward (dictionary : Dictionary κ ν) (steps : Nat) :
    Nat → Bookmark κ ν → Checked (List (Nat × κ × ν))
  | 0, _ => .ok []
  | strides + 1, bookmark =>
      if bookmark.isEnd then .ok []
      else do
        let seen ← dictionary.sight bookmark
        let moved ← dictionary.stepsAfter steps bookmark
        let more ← strideForward dictionary steps strides moved
        pure (seen :: more)

/-- Stride backwards from a bookmark until `start`, recording what is there after each
stride. The second last argument bounds the number of strides. -/
def strideBackward (dictionary : Dictionary κ ν) (start : Bookmark κ ν) (steps : Nat) :
    Nat → Bookmark κ ν → Checked (List (Nat × κ × ν))
  | 0, _ => .ok []
  | strides + 1, bookmark => do
      let order ← bookmark.order start
      if order.isEq then pure []
      else
        let moved ← dictionary.stepsBefore start steps bookmark
        let seen ← dictionary.sight moved
        let more ← strideBackward dictionary start steps strides moved
        pure (seen :: more)

/-- Stride through the dictionary, a positive number of steps at a time: from the start
forwards, or from the end backwards. There are at most as many strides as entries. -/
def walk (dictionary : Dictionary κ ν) (steps : Nat) (backwards : Bool) :
    Checked (List (Nat × κ × ν)) := do
  let start ← dictionary.startBookmark
  if backwards then
    dictionary.strideBackward start steps dictionary.size dictionary.endBookmark
  else dictionary.strideForward steps dictionary.size start

end Dictionary

end CountedBTree
