import CountedBTree.Scalar.Sample
import CountedBTree.Session.Registers
import CountedBTree.Session.Reply
import CountedBTree.Tree.Write

/-!
# Sessions on trees

A session on trees makes, copies, writes and reads named trees. A copy keeps the
stamp of its origin until one of the two is written to.
-/

namespace CountedBTree

/-- The three ways of writing an entry. -/
inductive WriteRule where
  /-- Insert after every entry whose key is not greater. -/
  | insertKey
  /-- Replace the value of the last equal key, or insert. -/
  | insertOrUpdate
  /-- Replace the value of the first equal key, or insert. -/
  | updateFirstOrInsert
  deriving DecidableEq, Repr

/-- Which entry a place should lead to. -/
inductive Target (κ : Type) where
  | first
  | last
  /-- The entry at an offset, which must be there. -/
  | offset (offset : Nat)
  /-- The first entry with an equal key. -/
  | key (key : κ)
  deriving Repr

/-- How to get from one place to another. -/
inductive PlaceMove where
  | forward
  | backward
  | copy
  /-- A number of entries away, inside the same leaf. -/
  | shift (distance : Int)
  deriving DecidableEq, Repr

/-- Where a trail starts. -/
inductive TrailStart where
  | nowhere
  | first
  | last
  | offset (offset : Nat)
  /-- Along explicit child numbers to a slot. -/
  | numbers (numbers : List Nat) (slot : Nat)
  deriving DecidableEq, Repr

/-- How to move a trail. -/
inductive TrailMove where
  | forward
  | backward
  /-- Look one step forwards and back again, without moving. -/
  | lookAround
  deriving DecidableEq, Repr

/-- What can be asked of a tree. -/
inductive TreeQuery (κ : Type) where
  | overview
  | anyValue (key : κ)
  | firstValue (key : κ)
  | contains (key : κ)
  | counts (key : κ)
  | findings (key : κ)
  | entryAt (offset : Nat)
  | places (target : Target κ) (moves : List PlaceMove)
  | compareAll
  | trails (start : TrailStart) (moves : List TrailMove)
  | sweep (pulls : List Pull)
  | drain (pulls : List Pull)
  | sweepOffsets (start stop : Nat) (pulls : List Pull)
  | sweepBetween (low high : Bound κ) (pulls : List Pull)
  | check
  | dump

/-- A command to a session on trees. -/
inductive TreeCommand (κ ν : Type) where
  /-- Make an empty tree. -/
  | create (name : String) (capacities : Capacities)
  /-- Copy a tree. -/
  | copy (name target : String)
  /-- Make an empty tree with the capacities of another. -/
  | createLike (name target : String)
  /-- Whether two trees hold one root. -/
  | same (first second : String)
  /-- Write one entry. -/
  | write (name : String) (rule : WriteRule) (key : κ) (value : ν)
  /-- Write the entries of a run by one rule. -/
  | fill (name : String) (rule : WriteRule) (run : SampleRun)
  /-- Replace the value at a place. The value may be left out where there is no such
  place. -/
  | setValue (name : String) (target : Target κ) (value : Option ν)
  /-- Write to the first entry with a key, changing its value if one is given. -/
  | change (name : String) (key : κ) (value : Option ν)
  /-- Compare two places, both of which must be there. -/
  | comparePlaces (name : String) (one other : Target κ)
  | ask (name : String) (query : TreeQuery κ)

/-- A session on trees. -/
structure TreeSession (κ ν : Type) where
  /-- The named trees. -/
  trees : Registers (Stamped (Tree κ ν))
  /-- The next stamp to hand out. -/
  fresh : Stamp
  deriving Repr

variable {κ ν : Type}

namespace Tree

/-- The place of a target, none where there is no such entry. -/
def placeOf [Ord κ] (tree : Tree κ ν) : Target κ → Checked (Option (Place κ ν))
  | .first => tree.firstPlace
  | .last => tree.lastPlace
  | .offset offset => do
      let place ← tree.placeAt offset
      pure (some place)
  | .key key => tree.findFirst key

/-- The place of a target that a command relies on. -/
def needPlace [Ord κ] (tree : Tree κ ν) (target : Target κ) : Step (Place κ ν) := do
  let place ← tree.placeOf target
  match place with
  | some found => pure found
  | none => Traced.refuse .malformed

/-- The place after one move. -/
def movePlace (tree : Tree κ ν) (place : Place κ ν) :
    PlaceMove → Checked (Option (Place κ ν))
  | .forward => place.advanced tree.root
  | .backward => place.retreated tree.root
  | .copy => .ok (some place)
  | .shift distance => .ok (place.shiftedInLeaf distance)

/-- A place with what is found there. -/
def reportPlace (tree : Tree κ ν) (place : Place κ ν) : Checked (PlaceReport κ ν) := do
  let entry ← place.entry
  let offset ← tree.offsetOf place
  pure ⟨place, entry, offset⟩

/-- The places along a list of moves, up to the first move that leads nowhere. -/
def reportPlaces (tree : Tree κ ν) :
    Option (Place κ ν) → List PlaceMove → Checked (List (Option (PlaceReport κ ν)))
  | none, _ => .ok [none]
  | some place, [] => do
      let report ← tree.reportPlace place
      pure [some report]
  | some place, move :: rest => do
      let report ← tree.reportPlace place
      let moved ← tree.movePlace place move
      let more ← reportPlaces tree moved rest
      pure (some report :: more)

/-- The trail of a start. -/
def startTrail (tree : Tree κ ν) : TrailStart → Checked (Trail κ ν)
  | .nowhere => .ok []
  | .first => tree.root.leftmost
  | .last => tree.root.rightmost
  | .offset offset => tree.root.seekOffset offset
  | .numbers numbers slot => tree.root.follow slot numbers

/-- The places of all entries in order. -/
def allPlaces (tree : Tree κ ν) : Checked (List (Place κ ν)) :=
  (List.range tree.size).mapM tree.placeAt

end Tree

namespace Trail

/-- Where a trail stands. -/
def report (trail : Trail κ ν) : Checked (TrailReport κ ν) := do
  let entry ← trail.entry?
  let position ← trail.position?
  match entry, position, Place.ofTrail trail with
  | some entry, some offset, some place =>
      pure (.present entry offset place.numbers place.slot place.node.size)
  | _, _, _ => pure .away

/-- What a trail passes along a list of moves. -/
def reportMoves : Trail κ ν → List TrailMove → Checked (List (TrailReport κ ν))
  | _, [] => .ok []
  | trail, .forward :: rest => do
      let moved ← trail.next
      let report ← moved.report
      let more ← reportMoves moved rest
      pure (report :: more)
  | trail, .backward :: rest => do
      let moved ← trail.prev
      let report ← moved.report
      let more ← reportMoves moved rest
      pure (report :: more)
  | trail, .lookAround :: rest => do
      let there ← trail.next
      let nextEntry ← there.entry?
      let back ← there.prev
      let backEntry ← back.entry?
      let more ← reportMoves trail rest
      pure (.around nextEntry backEntry :: more)

end Trail

namespace TreeSession

/-- A session without trees. -/
def empty : TreeSession κ ν := ⟨Registers.empty, ⟨0⟩⟩

/-- Store a tree in a new state. -/
def store (session : TreeSession κ ν) (name : String) (tree : Tree κ ν) : TreeSession κ ν :=
  ⟨session.trees.set name ⟨tree, session.fresh⟩, session.fresh.succ⟩

/-- A tree after a write. -/
def status (tree : Tree κ ν) (returned : Returned ν) : Checked (Reply κ ν) := do
  let height ← tree.height
  pure (.status returned tree.size tree.generation height)

variable [Ord κ] [Footprint κ] [Footprint ν]

/-- Write one entry by a rule and answer the value it replaced. -/
def writeBy (rule : WriteRule) (tree : Tree κ ν) (key : κ) (value : ν) :
    Traced Fault (Option ν × Tree κ ν) :=
  match rule with
  | .insertKey => do
      let written ← tree.insertKey key value
      pure (none, written)
  | .insertOrUpdate => tree.insertOrUpdate key value
  | .updateFirstOrInsert => tree.updateFirstOrInsert key value

/-- Write one entry more by a rule, counting the values replaced so far. -/
def writeCounting (rule : WriteRule) (sofar : Nat × Tree κ ν) (entry : κ × ν) :
    Traced Fault (Nat × Tree κ ν) := do
  let (old, written) ← writeBy rule sofar.2 entry.1 entry.2
  pure (if old.isSome then sofar.1 + 1 else sofar.1, written)

/-- Write several entries by a rule and answer how many values were replaced. -/
def writeAll (rule : WriteRule) (tree : Tree κ ν) (entries : List (κ × ν)) :
    Traced Fault (Nat × Tree κ ν) :=
  entries.foldlM (writeCounting rule) (0, tree)

/-- Answer a question about a tree. -/
def answer (tree : Tree κ ν) : TreeQuery κ → Checked (Reply κ ν)
  | .overview => do
      let height ← tree.height
      let first ← tree.first?
      let last ← tree.last?
      pure (.overview tree.size tree.generation height first last)
  | .anyValue key => do
      let found ← tree.anyValue key
      pure (.value found)
  | .firstValue key => do
      let found ← tree.firstValue key
      pure (.value found)
  | .contains key => do
      let found ← tree.contains key
      pure (.flag found)
  | .counts key => do
      let less ← tree.countLess key
      let notGreater ← tree.countNotGreater key
      pure (.numbers [less, notGreater])
  | .findings key => do
      let anyValue ← tree.anyValue key
      let firstValue ← tree.firstValue key
      let present ← tree.contains key
      let less ← tree.countLess key
      let notGreater ← tree.countNotGreater key
      let place ← tree.findFirst key
      let report ← place.mapM tree.reportPlace
      pure (.findings anyValue firstValue present less notGreater report)
  | .entryAt offset => do
      let entry ← tree.entryAt? offset
      pure (.entry entry)
  | .places target moves => do
      let place ← tree.placeOf target
      let reports ← tree.reportPlaces place moves
      pure (.places reports)
  | .compareAll => do
      let places ← tree.allPlaces
      pure (.orderRows (places.map (fun left => places.map (fun right => compare left right))))
  | .trails start moves => do
      let trail ← tree.startTrail start
      let report ← trail.report
      let more ← trail.reportMoves moves
      pure (.trails (report :: more))
  | .sweep pulls => do
      let sweep ← tree.sweep
      let pulled ← Sweep.source.pullAll pulls sweep
      pure (.pulledEntries pulled)
  | .drain pulls => do
      let drain ← Drain.ofRoot tree.root
      let pulled ← Drain.source.pullAll pulls drain
      pure (.pulledEntries pulled)
  | .sweepOffsets start stop pulls => do
      let sweep ← Sweep.ofOffsets tree.root start stop
      let pulled ← Sweep.source.pullAll pulls sweep
      pure (.pulledEntries pulled)
  | .sweepBetween low high pulls => do
      let sweep ← tree.sweepBetween low high
      let pulled ← Sweep.source.pullAll pulls sweep
      pure (.pulledEntries pulled)
  | .check => do
      tree.check
      pure .done
  | .dump => .ok (.node tree.root)

/-- Run a command. -/
def step [SampleKey κ] [SampleValue ν] (session : TreeSession κ ν) :
    TreeCommand κ ν → Step (Reply κ ν × TreeSession κ ν)
  | .create name capacities => do
      let tree ← Tree.empty capacities
      let reply ← status tree .nothing
      pure (reply, session.store name tree)
  | .copy name target => do
      let held ← session.trees.need name
      let reply ← status held.value .nothing
      pure (reply, { session with trees := session.trees.set target held })
  | .createLike name target => do
      let held ← session.trees.need name
      let tree ← held.value.emptyLike
      let reply ← status tree .nothing
      pure (reply, session.store target tree)
  | .same first second => do
      let left ← session.trees.need first
      let right ← session.trees.need second
      pure (.flag (left.stamp == right.stamp), session)
  | .write name rule key value => do
      let held ← session.trees.need name
      let (old, tree) ← writeBy rule held.value key value
      let reply ← status tree (.ofOption old)
      pure (reply, session.store name tree)
  | .fill name rule run => do
      let held ← session.trees.need name
      let entries ← run.entries
      let (replaced, tree) ← writeAll rule held.value entries
      let reply ← status tree (.count replaced)
      pure (reply, if entries.isEmpty then session else session.store name tree)
  | .setValue name target value => do
      let held ← session.trees.need name
      let place ← held.value.placeOf target
      match place, value with
      | none, _ => pure (.nothing, session)
      | some _, none => Traced.refuse .malformed
      | some place, some value => do
          let (old, tree) ← held.value.setValue place value
          let reply ← status tree (.value old)
          pure (reply, session.store name tree)
  | .change name key value => do
      let held ← session.trees.need name
      let written ← held.value.changeFirst key (fun old => value.getD old)
      match written with
      | none => do
          let reply ← status held.value .nothing
          pure (reply, session)
      | some (old, tree) => do
          let reply ← status tree (.value old)
          pure (reply, session.store name tree)
  | .comparePlaces name one other => do
      let held ← session.trees.need name
      let left ← held.value.needPlace one
      let right ← held.value.needPlace other
      pure (.placeOrder (compare left right) (left == right), session)
  | .ask name query => do
      let held ← session.trees.need name
      let reply ← answer held.value query
      pure (reply, session)

end TreeSession

end CountedBTree
