import CountedBTree.Node.Insertion
import CountedBTree.Session.Registers
import CountedBTree.Session.Reply
import CountedBTree.Text.Listing

/-!
# Sessions on single nodes

A session on nodes builds and changes nodes outside any tree, so it reaches nodes
that no tree holds. Nodes can be shared: between names, and as children of several
nodes. Sharing is not a matter of values, so each node carries the stamp of its own
making, and the stamps of the nodes below it, beside it. A write makes a new node;
nodes that move from parent to parent stay what they are.
-/

namespace CountedBTree

/-- The stamps of a node and of the nodes below it. -/
inductive Identity where
  /-- The stamp of a node, and the identities of its children. -/
  | mk (stamp : Stamp) (parts : List Identity)
  deriving Repr

namespace Identity

/-- The stamp of the node itself. -/
def stamp : Identity → Stamp
  | mk stamp _ => stamp

/-- The identities of the children. -/
def parts : Identity → List Identity
  | mk _ parts => parts

/-- A new node with the same children. -/
def renew (fresh : Stamp) (identity : Identity) : Identity := mk fresh identity.parts

/-- New nodes along a way down, with the same children beside the way. Each takes a
stamp of its own. -/
def renewAlong (fresh : Stamp) : List Nat → Identity → Identity
  | [], identity => identity.renew fresh
  | number :: rest, mk _ parts =>
      match parts[number]? with
      | some child => mk fresh (parts.set number (renewAlong fresh.succ rest child))
      | none => mk fresh parts

end Identity

/-- A node and who it is. -/
structure SharedNode (κ ν : Type) where
  /-- The node. -/
  node : Node κ ν
  /-- Its stamp and those of the nodes below. -/
  identity : Identity
  deriving Repr

/-- What can be asked of a node without changing it. -/
inductive NodeQuery (κ : Type) where
  | facts
  | childCount
  | slots (key : κ)
  | entry (slot : Nat)
  | key (slot : Nat)
  | value (slot : Nat)
  | childToChange (number : Nat)
  | children
  | lookup (key : κ)
  | childrenTotal (wanted : Nat)
  | offsetOfSlot (slot : Nat)
  | checkShallow
  | check
  | dump
  | listing

/-- A command to a session on nodes. Names come first; `target` names the value that
the command stores besides. -/
inductive NodeCommand (κ ν : Type) where
  /-- Make an empty node. -/
  | create (name : String) (capacity : Nat) (branch : Bool)
  /-- Make a branch over two nodes. -/
  | join (name left right : String) (median : κ × ν) (capacity : Nat)
  /-- Give a node a second name. -/
  | share (name target : String)
  /-- Whether two names stand for one node. -/
  | same (first second : String)
  /-- Replace a value some way below. -/
  | setValueBelow (name : String) (path : List Nat) (slot : Nat) (value : ν)
  /-- Insert an entry, splitting a full node and storing its right half. -/
  | insert (name : String) (slot : Nat) (entry : κ × ν) (child : Option String)
      (target : String)
  | insertBare (name : String) (slot : Nat) (entry : κ × ν) (child : Option String)
  | pop (name : String)
  | remove (name : String) (slot : Nat)
  | countInsertion (name : String)
  | moveEntries (name target : String) (start count : Nat)
  | moveChildren (name target : String) (start count : Nat)
  | setValue (name : String) (slot : Nat) (value : ν)
  /-- Store a child under a name of its own. -/
  | fetchChild (name : String) (number : Nat) (target : String)
  | ask (name : String) (query : NodeQuery κ)

/-- A session on nodes. -/
structure NodeSession (κ ν : Type) where
  /-- The named nodes. -/
  nodes : Registers (SharedNode κ ν)
  /-- The next stamp to hand out. -/
  fresh : Stamp
  deriving Repr

namespace NodeSession

variable {κ ν : Type}

/-- A session without nodes. -/
def empty : NodeSession κ ν := ⟨Registers.empty, ⟨0⟩⟩

/-- Store a node under a name. -/
def store (session : NodeSession κ ν) (name : String) (node : Node κ ν) (identity : Identity) :
    NodeSession κ ν :=
  { session with nodes := session.nodes.set name ⟨node, identity⟩ }

/-- Leave a number of stamps behind as handed out. -/
def spend (session : NodeSession κ ν) (count : Nat) : NodeSession κ ν :=
  { session with fresh := session.fresh.later count }

/-- Store a changed node as a new node with the same children. -/
def storeChanged (session : NodeSession κ ν) (name : String) (old : SharedNode κ ν)
    (node : Node κ ν) : NodeSession κ ν :=
  (session.store name node (old.identity.renew session.fresh)).spend 1

/-- The named node, when a name is given. -/
def needChild (session : NodeSession κ ν) : Option String → Step (Option (SharedNode κ ν))
  | none => pure none
  | some name => do
      let child ← session.nodes.need name
      pure (some child)

/-- The identities of the children after a right child arrived behind `slot`. -/
def arrive (identity : Identity) (slot : Nat) (child : Option (SharedNode κ ν)) :
    List Identity :=
  match child with
  | none => identity.parts
  | some shared => identity.parts.insertIdx (slot + 1) shared.identity

/-- The sizes and child counts of two nodes. -/
def measures (first second : Node κ ν) : List Nat :=
  [first.size, first.children.length, second.size, second.children.length]

variable [Ord κ] [Footprint κ] [Footprint ν] [Listed κ] [Listed ν]

/-- Answer a question about a node. -/
def answer (node : Node κ ν) : NodeQuery κ → Checked (Reply κ ν)
  | .facts => .ok (.nodeFacts node)
  | .childCount => do
      let count ← node.childCount
      pure (.number count)
  | .slots key => .ok (.numbers [node.firstSlot key, node.lastSlot key])
  | .entry slot => do
      let entry ← node.entryAt slot
      pure (.entry (some entry))
  | .key slot => do
      let key ← node.keyAt slot
      pure (.key key)
  | .value slot => do
      let value ← node.valueAt slot
      pure (.value (some value))
  | .childToChange number => do
      let child ← node.childToChange number
      pure (.node child)
  | .children => .ok (.nodes node.children)
  | .lookup key => do
      let found ← node.lookup key
      pure (.value found)
  | .childrenTotal wanted => do
      let total ← node.childrenTotal wanted
      pure (.number total)
  | .offsetOfSlot slot => do
      let offset ← node.offsetOfSlot slot
      pure (.number offset)
  | .checkShallow => do
      node.checkShallow
      pure .done
  | .check => do
      let depth ← node.check
      pure (.number depth)
  | .dump => .ok (.node node)
  | .listing => .ok (.text node.listing)

/-- Run a command. -/
def step (session : NodeSession κ ν) : NodeCommand κ ν → Step (Reply κ ν × NodeSession κ ν)
  | .create name capacity branch => do
      let node ← if branch then Node.newBranch capacity else Node.newLeaf capacity
      pure (.done, (session.store name node (.mk session.fresh [])).spend 1)
  | .join name left right median capacity => do
      let first ← session.nodes.need left
      let second ← session.nodes.need right
      let node ← Node.join first.node median second.node capacity
      let identity := Identity.mk session.fresh [first.identity, second.identity]
      pure (.node node, (session.store name node identity).spend 1)
  | .share name target => do
      let shared ← session.nodes.need name
      pure (.done, session.store target shared.node shared.identity)
  | .same first second => do
      let left ← session.nodes.need first
      let right ← session.nodes.need second
      pure (.flag (left.identity.stamp == right.identity.stamp), session)
  | .setValueBelow name path slot value => do
      let shared ← session.nodes.need name
      let (old, node) ← shared.node.changeValueAlong (fun _ => value) slot path
      let identity := shared.identity.renewAlong session.fresh path
      pure (.value (some old), (session.store name node identity).spend (path.length + 1))
  | .insert name slot entry childName target => do
      let shared ← session.nodes.need name
      let child ← session.needChild childName
      let insertion ← shared.node.insertAt slot entry (child.map SharedNode.node)
      let parts := arrive shared.identity slot child
      match insertion with
      | .kept node =>
          pure (.kept node, (session.store name node (.mk session.fresh parts)).spend 1)
      | .split left median right =>
          let divider := left.children.length
          let leftStored := session.store name left (.mk session.fresh (parts.take divider))
          let bothStored :=
            leftStored.store target right (.mk session.fresh.succ (parts.drop divider))
          pure (.divided left median right, bothStored.spend 2)
  | .insertBare name slot entry childName => do
      let shared ← session.nodes.need name
      let child ← session.needChild childName
      let node ← shared.node.insertEntry slot entry (child.map SharedNode.node)
      let identity := Identity.mk session.fresh (arrive shared.identity slot child)
      pure (.node node, (session.store name node identity).spend 1)
  | .pop name => do
      let shared ← session.nodes.need name
      let (entry, node) ← shared.node.popEntry
      pure (.taken entry node, session.storeChanged name shared node)
  | .remove name slot => do
      let shared ← session.nodes.need name
      let (entry, node) ← shared.node.removeEntry slot
      pure (.taken entry node, session.storeChanged name shared node)
  | .countInsertion name => do
      let shared ← session.nodes.need name
      let node ← shared.node.countInsertion
      pure (.number node.total, session.storeChanged name shared node)
  | .moveEntries name target start count => do
      let source ← session.nodes.need name
      let goal ← session.nodes.need target
      if name == target then Traced.refuse .malformed
      let (first, second) ← source.node.moveEntries goal.node start count
      let after := (session.storeChanged name source first).storeChanged target goal second
      pure (.numbers (measures first second), after)
  | .moveChildren name target start count => do
      let source ← session.nodes.need name
      let goal ← session.nodes.need target
      if name == target then Traced.refuse .malformed
      let (first, second) ← source.node.moveChildren goal.node start count
      let parts := source.identity.parts
      let kept := parts.take start ++ parts.drop (start + count)
      let moved := (parts.drop start).take count
      let sourceStored := session.store name first (.mk session.fresh kept)
      let bothStored :=
        sourceStored.store target second (.mk session.fresh.succ (goal.identity.parts ++ moved))
      pure (.numbers (measures first second), bothStored.spend 2)
  | .setValue name slot value => do
      let shared ← session.nodes.need name
      let (old, node) ← shared.node.changeValue slot (fun _ => value)
      pure (.value (some old), session.storeChanged name shared node)
  | .fetchChild name number target => do
      let shared ← session.nodes.need name
      let child ← shared.node.childAt number
      let identity := shared.identity.parts[number]?.getD (.mk session.fresh [])
      pure (.node child, (session.store target child identity).spend 1)
  | .ask name query => do
      let shared ← session.nodes.need name
      let reply ← answer shared.node query
      pure (reply, session)

end NodeSession

end CountedBTree
