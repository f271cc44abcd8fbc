import CountedBTree.Fault

/-!
# Events

A write reports the reshaping it causes: one event for each node that splits,
from the leaf upwards, and one more when the root itself split and the tree grew.
On its way down it reports the nodes that it copies because somebody else holds them,
too; the operations on trees leave these out, and `CountedBTree.Copying` adds them.
Events are plain data gathered in the order in which they happen. They outlive a
refusal: what happened before the refusal stays reported.
-/

namespace CountedBTree

/-- Where the new entry lands in a full node, relative to the entry that moves up
to the parent. -/
inductive SplitSide where
  /-- The new entry itself moves up. -/
  | atMedian
  /-- The new entry goes into the right half. -/
  | rightOfMedian
  /-- The new entry goes into the left half. -/
  | leftOfMedian
  deriving DecidableEq, Repr

/-- What a write did to the shape of a tree, or copied. -/
inductive Event where
  /-- A full node of the given capacity split for an entry arriving at `slot`. -/
  | split (side : SplitSide) (capacity slot : Nat)
  /-- The root split, leaving a tree of this height with this many entries. -/
  | grew (height size : Nat)
  /-- A node with so many entries, a leaf or not, was copied because it was shared. -/
  | copied (size : Nat) (leaf : Bool)
  deriving DecidableEq, Repr

/-- The wording of an event, without its numbers. -/
def Event.message : Event → String
  | .split .atMedian _ _ => "split at median"
  | .split .rightOfMedian _ _ => "split right of median"
  | .split .leftOfMedian _ _ => "split left of median"
  | .grew _ _ => "root split"
  | .copied _ _ => "copying shared node before write"

/-- A computation that reports events and then either answers or is refused for a
cause of type `ε`. -/
@[ext]
structure Traced (ε α : Type) where
  /-- The events in the order in which they happened. -/
  events : List Event
  /-- The answer, or the cause of the refusal. -/
  outcome : Except ε α

namespace Traced

variable {ε α β : Type}

/-- Run the continuation on an answer and append its events; a refusal stops here
and keeps the events reported so far. -/
def andThen (first : Traced ε α) (next : α → Traced ε β) : Traced ε β :=
  match first.outcome with
  | .error cause => ⟨first.events, .error cause⟩
  | .ok value =>
      let second := next value
      ⟨first.events ++ second.events, second.outcome⟩

instance : Monad (Traced ε) where
  pure value := ⟨[], .ok value⟩
  bind := andThen

/-- Continuing with the bare answer changes nothing. -/
theorem map_id (run : Traced ε α) : id <$> run = run := by
  rcases run with ⟨events, outcome⟩
  cases outcome <;> simp [Functor.map, andThen]

/-- A bare answer reports nothing before its continuation. -/
theorem pure_andThen (value : α) (next : α → Traced ε β) :
    andThen (pure value) next = next value := by
  simp [andThen, pure]

/-- Events are appended in order however the steps are grouped. -/
theorem andThen_assoc {γ : Type} (run : Traced ε α) (first : α → Traced ε β)
    (second : β → Traced ε γ) :
    andThen (andThen run first) second =
      andThen run (fun value => andThen (first value) second) := by
  rcases run with ⟨events, outcome⟩
  cases outcome with
  | error cause => rfl
  | ok value =>
    simp only [andThen]
    cases (first value).outcome <;> simp

instance : LawfulMonad (Traced ε) := LawfulMonad.mk' _ map_id pure_andThen andThen_assoc

/-- A checked step inside a traced computation reports nothing. -/
instance : MonadLift (Except ε) (Traced ε) where
  monadLift step := ⟨[], step⟩

/-- Report one event. -/
def report (event : Event) : Traced ε Unit := ⟨[event], .ok ()⟩

/-- Refuse for the given cause. -/
def refuse (cause : ε) : Traced ε α := ⟨[], .error cause⟩

/-- Rename the cause of a refusal. -/
def mapCause {δ : Type} (rename : ε → δ) (run : Traced ε α) : Traced δ α :=
  ⟨run.events, run.outcome.mapError rename⟩

end Traced

end CountedBTree
