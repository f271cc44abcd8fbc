import CountedBTree.Copying
import CountedBTree.Proofs.LastUpdate

/-!
# How far a split travels

An insertion changes the nodes on its way down and no others. It starts at the leaf. Every full
node that it meets on the way back splits, and hands a median and a right half to the node above.
The first node with room takes what arrives there, as one entry more, and in a branch with one
child more. From there up the nodes count one entry more and stay as they are otherwise. If no
node on the way had room, the two halves of the root come to stand under a new one, and only then
is the tree a level higher.

So the splits reported are those of the longest run of full nodes at the lower end of the way
down, in order from the leaf upwards, and a report that the root split can only be the last one.
A write that replaces a value reports no split. What is reported besides are the copies of shared
nodes, which a write makes on its way down, before anything splits.
-/

namespace CountedBTree

variable {κ ν : Type}

/-- One entry more, and one child more in a branch. -/
structure Node.Gains (node wider : Node κ ν) : Prop where
  entry : wider.size = node.size + 1
  child : wider.children.length = node.children.length + if node.isLeaf then 0 else 1
  counted : wider.total = node.total + 1

/-- The report of a node that splits for an entry at the number of its frame. It names the side of
the median by the number and half the size of the node. -/
def Frame.splitEvent (frame : Frame κ ν) : Event :=
  let side := match compare frame.number (frame.node.size / 2) with
    | .lt => .leftOfMedian
    | .eq => .atMedian
    | .gt => .rightOfMedian
  .split side frame.node.capacity frame.number

/-- The side of a slot is the order of the slot and half the size. -/
theorem SplitSide.ofSlot_eq_compare (size slot : Nat) :
    SplitSide.ofSlot size slot = match compare slot (size / 2) with
      | .lt => .leftOfMedian
      | .eq => .atMedian
      | .gt => .rightOfMedian := by
  rcases Nat.lt_trichotomy slot (size / 2) with less | equal | greater
  · have order : compare slot (size / 2) = .lt := Nat.compare_eq_lt.mpr less
    rw [order, ofSlot, if_neg (by omega), if_neg (by omega)]
  · have order : compare slot (size / 2) = .eq := Nat.compare_eq_eq.mpr equal
    rw [order, ofSlot, if_pos equal]
  · have order : compare slot (size / 2) = .gt := Nat.compare_eq_gt.mpr greater
    rw [order, ofSlot, if_neg (by omega), if_pos greater]

/-- A full node reports its split, and a node with room reports nothing. -/
theorem Node.splitEvents_eq (node : Node κ ν) (slot : Nat) :
    node.splitEvents slot = if node.isFull then [Frame.splitEvent ⟨node, slot⟩] else [] := by
  rw [splitEvents, Frame.splitEvent, SplitSide.ofSlot_eq_compare]

namespace Trail

/-- The splits along a way down: one for each node of the longest run of full nodes at its lower
end, from the leaf upwards. -/
def splits (trail : Trail κ ν) : List Event :=
  (trail.reverse.takeWhile (fun frame => frame.node.isFull)).map Frame.splitEvent

/-- A full node above nothing but full ones adds its split as the last. -/
theorem splits_cons_full {rest : Trail κ ν} (frame : Frame κ ν)
    (full : ∀ below ∈ rest, below.node.isFull = true) :
    splits (frame :: rest) = splits rest ++ frame.node.splitEvents frame.number := by
  have all : ∀ below ∈ rest.reverse, below.node.isFull = true := by simpa using full
  simp only [splits, List.reverse_cons, List.takeWhile_append_of_pos all, Node.splitEvents_eq,
    List.takeWhile_eq_self_iff.mpr all, List.map_append]
  by_cases here : frame.node.isFull = true <;> simp [here, List.takeWhile]

/-- What arrives at the node of a frame when every node below it on the way down splits. In a leaf
it is the new entry. In a branch the left half of the child that split takes its place, and its
median and right half are the entry and the right child to take. The other children of each node
on the way stay as they are. -/
inductive Delivers (entry : κ × ν) :
    Trail κ ν → Frame κ ν → Node κ ν → κ × ν → Option (Node κ ν) → Prop where
  | leaf (frame : Frame κ ν) : Delivers entry [] frame frame.node entry none
  | branch {run : Trail κ ν} {below : Frame κ ν} {node left right : Node κ ν}
      {arrived median : κ × ν} {rightChild : Option (Node κ ν)} (frame : Frame κ ν)
      (handed : Delivers entry run below node arrived rightChild)
      (full : below.node.isFull = true)
      (divides : Node.Divides node below.number arrived rightChild left median right) :
      Delivers entry (below :: run) frame (frame.node.withChild frame.number left) median
        (some right)

/-- The nodes above one that took an entry, each with the node below in place and one entry more
counted. -/
def recounted (above : Trail κ ν) (lowest : Node κ ν) : Node κ ν :=
  above.foldr
    (fun frame child => (frame.node.withChild frame.number child).withTotal (frame.node.total + 1))
    lowest

/-- How an insertion along a way down ends: a node with room takes what arrives there, or the
topmost node splits like all below it. -/
inductive Takes (entry : κ × ν) (trail : Trail κ ν) : Upshot κ ν → Prop where
  | settled {above run : Trail κ ν} {vacant : Frame κ ν} {node : Node κ ν} {arrived : κ × ν}
      {rightChild : Option (Node κ ν)}
      (path : trail = above ++ vacant :: run)
      (room : vacant.node.isFull = false)
      (delivers : Delivers entry run vacant node arrived rightChild)
      (gains : vacant.node.Gains (node.widened vacant.number arrived rightChild)) :
      Takes entry trail
        (.inserted (above.recounted (node.widened vacant.number arrived rightChild)))
  | divided {run : Trail κ ν} {top : Frame κ ν} {node left right : Node κ ν}
      {arrived median : κ × ν} {rightChild : Option (Node κ ν)}
      (path : trail = top :: run)
      (full : top.node.isFull = true)
      (delivers : Delivers entry run top node arrived rightChild)
      (divides : Node.Divides node top.number arrived rightChild left median right) :
      Takes entry trail (.split left median right)

variable {entry arrived median : κ × ν} {run rest trail : Trail κ ν} {frame : Frame κ ν}
variable {node left right child : Node κ ν} {rightChild : Option (Node κ ν)}

/-- The nodes below one that something is delivered to are full. -/
theorem Delivers.full (delivers : Delivers entry run frame node arrived rightChild) :
    ∀ below ∈ run, below.node.isFull = true := by
  induction delivers with
  | leaf frame => simp
  | branch frame handed full divides inductionHypothesis =>
    exact List.forall_mem_cons.mpr ⟨full, inductionHypothesis⟩

/-- A delivery leaves all of the node alone but a child. -/
theorem Delivers.same (delivers : Delivers entry run frame node arrived rightChild) :
    node.total = frame.node.total ∧ node.isFull = frame.node.isFull ∧
      (∀ slot, node.splitEvents slot = frame.node.splitEvents slot) ∧
      ∀ wider, node.Gains wider → frame.node.Gains wider := by
  cases delivers with
  | leaf => exact ⟨rfl, rfl, fun _ => rfl, fun _ gains => gains⟩
  | branch frame handed full divides =>
    rcases frame with ⟨node, number⟩
    refine ⟨?_, ?_, ?_, ?_⟩
    · cases node <;> rfl
    · cases node <;> rfl
    · cases node <;> exact fun _ => rfl
    · rintro wider ⟨entry, child, counted⟩
      cases node with
      | leaf => exact ⟨entry, child, counted⟩
      | branch =>
        have sameChildren : wider.children.length = _ := child
        rw [Node.withChild, Node.withChildren, Node.children, List.length_set] at sameChildren
        exact ⟨entry, sameChildren, counted⟩

/-- A split that reached the top went through full nodes only. -/
theorem Takes.full (takes : Takes entry trail (.split left median right)) :
    ∀ frame ∈ trail, frame.node.isFull = true := by
  cases takes with
  | divided path full delivers divides =>
    subst path
    exact List.forall_mem_cons.mpr ⟨full, delivers.full⟩

/-- A split that did not reach the top was stopped by a node with room. -/
theorem Takes.room (takes : Takes entry trail (.inserted node)) :
    ∃ frame ∈ trail, frame.node.isFull = false := by
  cases takes with
  | settled path room delivers gains => exact ⟨_, by simp [path], room⟩

/-- A node above one that took the entry takes nothing itself. -/
theorem Takes.above (takes : Takes entry rest (.inserted child)) :
    Takes entry (frame :: rest)
      (.inserted ((frame.node.withChild frame.number child).withTotal (frame.node.total + 1))) := by
  cases takes with
  | @settled above run vacant node arrived rightChild path room delivers gains =>
    have longer : frame :: rest = (frame :: above) ++ vacant :: run := by simp [path]
    exact .settled longer room delivers gains

/-- A split below arrives at the node above it. -/
theorem Takes.delivers (takes : Takes entry rest (.split left median right)) :
    Delivers entry rest frame (frame.node.withChild frame.number left) median (some right) := by
  cases takes with
  | divided path full delivers divides =>
    subst path
    exact .branch frame delivers full divides

end Trail

/-! ## One node -/

namespace Node

variable {slot : Nat} {node left right : Node κ ν} {entry median : κ × ν} {events : List Event}
variable {rightChild : Option (Node κ ν)} {insertion : Insertion κ ν}

/-- A node that takes an entry gains it, and in a branch the right child. -/
theorem Receives.gains (receives : node.Receives slot rightChild) (entry : κ × ν) :
    node.Gains (node.widened slot entry rightChild) := by
  refine ⟨widened_size entry rightChild receives.inside, ?_, widened_total node slot entry _⟩
  have matching := receives.matching
  have place := receives.place
  cases node with
  | leaf capacity total entries =>
    obtain rfl : rightChild = none := by simpa [isLeaf] using matching.symm
    rfl
  | branch capacity total entries children =>
    cases rightChild with
    | none => simp [isLeaf] at matching
    | some child => exact List.length_insertIdx_of_le_length (place rfl) child

/-- Another child in the place of one changes the count by what the two count. -/
theorem totalOfAll_set {children : List (Node κ ν)} {number : Nat} {child : Node κ ν}
    (found : children[number]? = some child) (changed : Node κ ν) :
    totalOfAll (children.set number changed) + child.total =
      totalOfAll children + changed.total := by
  induction children generalizing number with
  | nil => simp at found
  | cons first rest inductionHypothesis =>
    cases number with
    | zero =>
      obtain rfl : first = child := by simpa using found
      simp only [List.set_cons_zero, totalOfAll]
      omega
    | succ number =>
      have further := inductionHypothesis (by simpa using found)
      simp only [List.set_cons_succ, totalOfAll]
      omega

/-- A branch with the left half of a child in the place of the child receives the right half: the
two halves and the median count one entry more than the child did. -/
theorem Shaped.receives {capacities : Capacities} {height total number : Nat}
    {entries : List (κ × ν)} {children : List (Node κ ν)} {child : Node κ ν}
    (branchRoom : 2 ≤ capacities.branch)
    (shaped : Shaped capacities (height + 1)
      (Node.branch capacities.branch total entries children))
    (found : children[number]? = some child)
    (halves : left.total + 1 + right.total = child.total + 1) :
    ((Node.branch capacities.branch total entries children).withChild number left).Receives number
      (some right) := by
  have held : total = entries.length + totalOfAll children := shaped.countedTotal_eq.symm
  have summed := totalOfAll_set found left
  obtain ⟨bound, _⟩ := List.getElem?_eq_some_iff.mp found
  cases shaped with
  | branch fits separated arity =>
    constructor
    case several => exact branchRoom
    case arity => simpa [withChild, withChildren, Node.children, childrenFit] using arity
    case inside =>
      have inside : number ≤ entries.length := by omega
      exact inside
    case matching => rfl
    case counted =>
      have count :
          total = entries.length + totalOfAll (children.set number left) + right.total := by omega
      exact count

variable [Ord κ]

/-- An insertion that was answered kept a node with room, or divided a full one. -/
theorem Receives.insertAt_ran (receives : node.Receives slot rightChild)
    (fits : node.size ≤ node.capacity) (small : node.total + 1 < Fault.wordLimit)
    (ran : node.insertAt slot entry rightChild = ⟨events, .ok insertion⟩) :
    events = node.splitEvents slot ∧
      ((node.isFull = false ∧ insertion = .kept (node.widened slot entry rightChild)) ∨
        node.isFull = true ∧ ∃ left median right,
          Divides node slot entry rightChild left median right ∧
            insertion = .split left median right) := by
  by_cases full : node.isFull = true
  · have filled : node.size = node.capacity := by simpa [isFull] using full
    obtain ⟨left, median, right, divides, run⟩ := receives.insertAt_divides entry filled small
    rw [run] at ran
    rcases leftChecked : left.checkShallow with cause | ⟨⟩ <;>
      rcases rightChecked : right.checkShallow with cause | ⟨⟩ <;>
      rw [leftChecked, rightChecked] at ran
    all_goals cases ran
    rw [splitEvents, if_pos full]
    exact ⟨rfl, .inr ⟨full, left, median, right, divides, rfl⟩⟩
  · have vacant : node.isFull = false := by simpa using full
    have room : node.size < node.capacity := by
      have differs : node.size ≠ node.capacity := by simpa [isFull] using full
      omega
    rw [insertAt_room entry receives.inside room receives.matching receives.place small] at ran
    rcases checked : (node.widened slot entry rightChild).checkShallow with cause | ⟨⟩ <;>
      rw [checked] at ran <;> cases ran
    rw [splitEvents, if_neg full]
    exact ⟨rfl, .inl ⟨vacant, rfl⟩⟩

end Node

/-! ## The way back up -/

namespace Trail

variable {capacities : Capacities} {height gap : Nat} {node base left right : Node κ ν}
variable {trail rest : Trail κ ν} {entry arrived median : κ × ν} {frame : Frame κ ν}
variable {rightChild : Option (Node κ ν)} {events : List Event} {upshot : Upshot κ ν}

variable [Ord κ]

/-- A node makes of what arrives there what an insertion into it makes, and reports its split after
those below. -/
theorem Delivers.takes {insertion : Insertion κ ν}
    (delivers : Delivers entry rest frame base arrived rightChild)
    (receives : base.Receives frame.number rightChild) (fits : base.size ≤ base.capacity)
    (small : base.total + 1 < Fault.wordLimit)
    (ran : base.insertAt frame.number arrived rightChild = ⟨events, .ok insertion⟩) :
    splits rest ++ events = splits (frame :: rest) ∧
      Takes entry (frame :: rest) (.ofInsertion insertion) := by
  obtain ⟨_, sameRoom, sameEvents, gains⟩ := delivers.same
  obtain ⟨rfl, outcome⟩ := receives.insertAt_ran fits small ran
  refine ⟨by rw [sameEvents, splits_cons_full frame delivers.full], ?_⟩
  rcases outcome with ⟨room, rfl⟩ | ⟨full, left, median, right, divides, rfl⟩
  · rw [sameRoom] at room
    exact .settled (List.nil_append _).symm room delivers (gains _ (receives.gains arrived))
  · rw [sameRoom] at full
    exact .divided rfl full delivers divides

end Trail

/-! ## The whole tree -/

variable [Ord κ]

namespace TreeAction

/-- The entry that an action adds to a tree, if it does not only replace a value. -/
def added (tree : Tree κ ν) : TreeAction κ ν → Option (κ × ν)
  | insertKey key value => some (key, value)
  | insertOrUpdate key value | updateFirstOrInsert key value =>
      if (tree.toList.find? (fun entry => (compare entry.1 key).isEq)).isSome then none
      else some (key, value)
  | _ => none

/-- The nodes that an action writes to, from the root downwards. -/
def way (tree : Tree κ ν) : TreeAction κ ν → List (Node κ ν)
  | insertKey key _ | insertOrUpdate key _ => tree.wayBehind key
  | updateFirstOrInsert key _ => (tree.wayToFirst key).getD (tree.wayBehind key)
  | changeFirst key _ => (tree.wayToFirst key).getD []
  | setValue place _ => tree.root.along place.numbers
  | copy | emptyLike => []

/-- All that an action reports, where `held` says of a depth whether somebody else holds the node
there on its way: the copies first, and then what it does to the shape of the tree. -/
def reports [Footprint κ] [Footprint ν] (held : Nat → Bool) (tree : Tree κ ν)
    (action : TreeAction κ ν) : List Event :=
  tree.copies held (action.way tree) ++ (action.run tree).events

end TreeAction

namespace Tree

variable [Footprint κ] [Footprint ν] [Std.TransOrd κ]
variable {tree after : Tree κ ν} {capacities : Capacities} {trail : Trail κ ν}

/-- A tree of two levels with no room in its root. -/
def crowded : Tree Nat Nat :=
  ⟨.branch 2 7 [(4, 40), (8, 80)]
    [.leaf 2 2 [(2, 20), (3, 30)], .leaf 2 2 [(6, 60), (7, 70)], .leaf 2 1 [(9, 90)]],
    ⟨2, 2⟩, 7⟩

end Tree

end CountedBTree
