import CountedBTree.Pull
import CountedBTree.Stamp
import CountedBTree.Tree.Write

/-!
# Dictionaries

A dictionary maps keys to values, in key order. It is a tree used in a disciplined
way: insertion replaces the value of an equal key and keeps the key as it was first
spelled. Only the bulk construction from distinct keys skips that, and keeps every
entry when its input breaks the promise; reads and writes then mean the first entry
with the key.

A dictionary carries the stamp of its state. Every operation that writes is given
the stamp for the state it makes.
-/

namespace CountedBTree

/-- A map from keys to values. -/
structure Dictionary (κ ν : Type) where
  /-- The entries. -/
  tree : Tree κ ν
  /-- The name of the current state. -/
  state : Stamp
  deriving Repr

namespace Dictionary

variable {κ ν : Type}

/-- An empty dictionary. -/
def empty [Footprint κ] [Footprint ν] (capacities : Capacities) (state : Stamp) :
    Checked (Dictionary κ ν) := do
  let tree ← Tree.empty capacities
  pure ⟨tree, state⟩

/-- The number of entries. -/
def size (dictionary : Dictionary κ ν) : Nat := dictionary.tree.size

/-- Whether there are no entries. -/
def isEmpty (dictionary : Dictionary κ ν) : Bool := dictionary.tree.isEmpty

/-- The entry with the smallest key. -/
def min? (dictionary : Dictionary κ ν) : Checked (Option (κ × ν)) := dictionary.tree.first?

/-- The entry with the largest key. -/
def max? (dictionary : Dictionary κ ν) : Checked (Option (κ × ν)) := dictionary.tree.last?

/-- The entry at an offset. -/
def entryAt? (dictionary : Dictionary κ ν) (offset : Nat) : Checked (Option (κ × ν)) :=
  dictionary.tree.entryAt? offset

/-- The entries in order, gathered by going over them. -/
def entries (dictionary : Dictionary κ ν) : Checked (List (κ × ν)) := do
  let sweep ← dictionary.tree.sweep
  sweep.toList

/-- Whether two dictionaries hold the same root. -/
def sameRoot (first second : Dictionary κ ν) : Bool := first.state == second.state

/-- Whether two dictionaries have equal entries, in order. Holding the same root is
enough, even if some value does not equal itself. -/
def equal [BEq κ] [BEq ν] (first second : Dictionary κ ν) : Checked Bool :=
  if first.sameRoot second then .ok true
  else if first.size != second.size then .ok false
  else do
    let left ← first.entries
    let right ← second.entries
    pure (left == right)

/-- Remove all entries, keeping the capacities and counting writes from zero again. -/
def cleared [Footprint κ] [Footprint ν] (dictionary : Dictionary κ ν) (state : Stamp) :
    Checked (Dictionary κ ν) := do
  let tree ← dictionary.tree.emptyLike
  pure ⟨tree, state⟩

variable [Ord κ]

/-- The value of the first entry with an equal key. -/
def get? (dictionary : Dictionary κ ν) (key : κ) : Checked (Option ν) :=
  dictionary.tree.firstValue key

/-- The value of a key that must be present. -/
def get (dictionary : Dictionary κ ν) (key : κ) : Checked ν := do
  let found ← dictionary.get? key
  match found with
  | some value => pure value
  | none => throw .missingKey

/-- Whether some entry has an equal key. -/
def contains (dictionary : Dictionary κ ν) (key : κ) : Checked Bool :=
  dictionary.tree.contains key

/-- Go over the entries whose keys satisfy two bounds. -/
def sweepBetween (dictionary : Dictionary κ ν) (low high : Bound κ) : Checked (Sweep κ ν) :=
  dictionary.tree.sweepBetween low high

/-- Apply a function to the value of a key and answer the value it replaced. Without
the key there is no write. -/
def change (dictionary : Dictionary κ ν) (key : κ) (change : ν → ν) (state : Stamp) :
    Checked (Option (ν × Dictionary κ ν)) := do
  let written ← dictionary.tree.changeFirst key change
  pure (written.map (fun (old, tree) => (old, ⟨tree, state⟩)))

variable [Footprint κ] [Footprint ν]

/-- Map a key to a value and answer the value it replaced. -/
def insert (dictionary : Dictionary κ ν) (key : κ) (value : ν) (state : Stamp) :
    Traced Fault (Option ν × Dictionary κ ν) := do
  let (old, tree) ← dictionary.tree.updateFirstOrInsert key value
  pure (old, ⟨tree, state⟩)

/-- Map one key more, counting the values replaced so far. -/
def insertCounting (state : Stamp) (sofar : Nat × Dictionary κ ν) (entry : κ × ν) :
    Traced Fault (Nat × Dictionary κ ν) := do
  let (old, written) ← sofar.2.insert entry.1 entry.2 state
  pure (if old.isSome then sofar.1 + 1 else sofar.1, written)

/-- Map several keys, one after the other, and answer how many values were replaced.
An empty list writes nothing. -/
def insertAll (dictionary : Dictionary κ ν) (state : Stamp) (entries : List (κ × ν)) :
    Traced Fault (Nat × Dictionary κ ν) :=
  entries.foldlM (insertCounting state) (0, dictionary)

/-- Build a dictionary by mapping the keys of a list one after the other. -/
def ofList (entries : List (κ × ν)) (state : Stamp) : Traced Fault (Dictionary κ ν) := do
  let start ← empty Capacities.standard state
  let (_, built) ← start.insertAll state entries
  pure built

/-- Build a dictionary from entries whose keys are distinct, without looking for
entries to replace. A key that repeats all the same keeps all its entries, in the
order given. -/
def ofDistinct (entries : List (κ × ν)) (state : Stamp) : Traced Fault (Dictionary κ ν) := do
  let start ← Tree.empty Capacities.standard
  let tree ← start.insertAll entries
  pure ⟨tree, state⟩

end Dictionary

end CountedBTree
