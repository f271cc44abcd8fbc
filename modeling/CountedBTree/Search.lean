/-!
# Searching a run of entries

A node keeps its entries in key order, so a key is located by halving. The search
asks a yes-or-no question of one entry at a time and narrows the run until a
single entry is left. When the questioned entries answer yes first and no
afterwards, the result counts the yes answers. It is defined for every run, also
for one whose keys are out of order, where it is simply what halving arrives at.
-/

namespace CountedBTree

variable {α κ ν : Type}

/-- Narrow a run by halves. The entry in the middle decides: on yes the run from
that entry on is kept, on no the last half is dropped. The first argument bounds
the number of steps; the length of the run is always enough, since a run of two
or more gets shorter. -/
def halve (holds : α → Bool) : Nat → List α → Nat
  | 0, _ => 0
  | _ + 1, [] => 0
  | _ + 1, [only] => if holds only then 1 else 0
  | steps + 1, first :: second :: rest =>
      let run := first :: second :: rest
      let half := run.length / 2
      match run.drop half with
      | [] => 0
      | middle :: after =>
          if holds middle then half + halve holds steps (middle :: after)
          else halve holds steps (run.take (run.length - half))

/-- The number of entries before the first one that answers no, found by halving. -/
def partitionPoint (holds : α → Bool) (run : List α) : Nat := halve holds run.length run

/-- The smallest slot whose key is not less than `key`. -/
def firstSlot [Ord κ] (key : κ) (entries : List (κ × ν)) : Nat :=
  partitionPoint (fun entry => (compare entry.1 key).isLT) entries

/-- The smallest slot whose key is greater than `key`. -/
def lastSlot [Ord κ] (key : κ) (entries : List (κ × ν)) : Nat :=
  partitionPoint (fun entry => (compare entry.1 key).isLE) entries

/-- The entry at `slot`, if there is one and its key equals `key`. -/
def entryEqualTo [Ord κ] (key : κ) (entries : List (κ × ν)) (slot : Nat) : Option (κ × ν) :=
  entries[slot]?.filter (fun entry => (compare entry.1 key).isEq)

end CountedBTree
