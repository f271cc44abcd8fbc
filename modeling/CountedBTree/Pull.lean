import CountedBTree.Drain
import CountedBTree.Sweep

/-!
# Pulling from both ends

What can be asked of anything that gives out items from a front and a back, and a
script of such requests. Sweeps and drains are two such sources over the same
entries; keys and values alone are sources made from them.
-/

namespace CountedBTree

/-- A supply of items that can be taken from either end. -/
structure TwoEnded (σ α : Type) where
  /-- Take an item from the front. -/
  next : σ → Checked (Option α × σ)
  /-- Take an item from the back. -/
  prev : σ → Checked (Option α × σ)
  /-- The number of items left. -/
  remaining : σ → Nat

/-- One request to a supply. -/
inductive Pull where
  /-- The next item from the front. -/
  | front
  /-- The next item from the back. -/
  | back
  /-- How many items are left. -/
  | left
  /-- All that is left, from the front, without taking it. -/
  | preview
  /-- All that is left, from the front. -/
  | rest
  /-- All that is left, from the back. -/
  | restBack
  deriving DecidableEq, Repr

/-- The answer to one request. -/
inductive Pulled (α : Type) where
  /-- An item, or none when nothing was left. -/
  | item (found : Option α)
  /-- A number of items left. -/
  | left (count : Nat)
  /-- Several items. -/
  | items (found : List α)
  deriving Repr

namespace TwoEnded

variable {σ α β : Type}

/-- Supply the images of items under a function. -/
def map (image : α → β) (source : TwoEnded σ α) : TwoEnded σ β where
  next state := do
    let (item, after) ← source.next state
    pure (item.map image, after)
  prev state := do
    let (item, after) ← source.prev state
    pure (item.map image, after)
  remaining := source.remaining

/-- Take up to `count` items in one direction, stopping when there is none. -/
def take (step : σ → Checked (Option α × σ)) : Nat → σ → Checked (List α × σ)
  | 0, state => .ok ([], state)
  | count + 1, state => do
      let (item, after) ← step state
      match item with
      | none => pure ([], after)
      | some found =>
          let (more, final) ← take step count after
          pure (found :: more, final)

/-- Take all items from the front. -/
def rest (source : TwoEnded σ α) (state : σ) : Checked (List α × σ) :=
  take source.next (source.remaining state) state

/-- Take all items from the back. -/
def restBack (source : TwoEnded σ α) (state : σ) : Checked (List α × σ) :=
  take source.prev (source.remaining state) state

/-- Answer one request. -/
def pull (source : TwoEnded σ α) (state : σ) : Pull → Checked (Pulled α × σ)
  | .front => do
      let (item, after) ← source.next state
      pure (.item item, after)
  | .back => do
      let (item, after) ← source.prev state
      pure (.item item, after)
  | .left => .ok (.left (source.remaining state), state)
  | .preview => do
      let (items, _) ← source.rest state
      pure (.items items, state)
  | .rest => do
      let (items, after) ← source.rest state
      pure (.items items, after)
  | .restBack => do
      let (items, after) ← source.restBack state
      pure (.items items, after)

/-- Answer a script of requests one after the other. -/
def pullAll (source : TwoEnded σ α) : List Pull → σ → Checked (List (Pulled α))
  | [], _ => .ok []
  | request :: more, state => do
      let (answer, after) ← source.pull state request
      let answers ← pullAll source more after
      pure (answer :: answers)

end TwoEnded

variable {κ ν : Type}

/-- A sweep as a supply of entries. -/
def Sweep.source : TwoEnded (Sweep κ ν) (κ × ν) where
  next := Sweep.next
  prev := Sweep.prev
  remaining := Sweep.remaining

/-- A drain as a supply of entries. -/
def Drain.source : TwoEnded (Drain κ ν) (κ × ν) where
  next := Drain.next
  prev := Drain.prev
  remaining := Drain.remaining

/-- All entries left in a sweep, from the front. -/
def Sweep.toList (sweep : Sweep κ ν) : Checked (List (κ × ν)) := do
  let (entries, _) ← Sweep.source.rest sweep
  pure entries

end CountedBTree
