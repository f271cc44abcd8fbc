import CountedBTree.Trail.Walk

/-!
# Sweeps

A sweep goes over the entries at a run of consecutive offsets and can be taken from
at either end. It keeps one trail for each end and the number of entries left. The
two trails never consult each other: the count alone keeps them from crossing, and
the step that takes the last entry does not move its trail any more.
-/

namespace CountedBTree

/-- The entries left between two trails. -/
structure Sweep (κ ν : Type) where
  /-- The trail to the next entry to take from the front. -/
  front : Trail κ ν
  /-- The trail to the next entry to take from the back. -/
  back : Trail κ ν
  /-- The number of entries left. -/
  remaining : Nat
  deriving Repr

namespace Sweep

variable {κ ν : Type}

/-- The sweep over the offsets from `start` up to, but not including, `stop`. Offsets
past the end of the tree are cut off, and a start past the stop leaves nothing. -/
def ofOffsets (root : Node κ ν) (start stop : Nat) : Checked (Sweep κ ν) :=
  let finish := min stop root.total
  let begin := min start finish
  if begin < finish then do
    let front ← root.seekOffset begin
    let back ← root.seekOffset (finish - 1)
    pure ⟨front, back, finish - begin⟩
  else .ok ⟨[], [], finish - begin⟩

/-- Take an entry from the front. -/
def next (sweep : Sweep κ ν) : Checked (Option (κ × ν) × Sweep κ ν) :=
  match sweep.remaining with
  | 0 => .ok (none, sweep)
  | 1 => do
      let entry ← sweep.front.entry?
      pure (entry, { sweep with remaining := 0 })
  | left + 2 => do
      let entry ← sweep.front.entry?
      let front ← sweep.front.next
      pure (entry, { sweep with front := front, remaining := left + 1 })

/-- Take an entry from the back. -/
def prev (sweep : Sweep κ ν) : Checked (Option (κ × ν) × Sweep κ ν) :=
  match sweep.remaining with
  | 0 => .ok (none, sweep)
  | 1 => do
      let entry ← sweep.back.entry?
      pure (entry, { sweep with remaining := 0 })
  | left + 2 => do
      let entry ← sweep.back.entry?
      let back ← sweep.back.prev
      pure (entry, { sweep with back := back, remaining := left + 1 })

end Sweep

end CountedBTree
