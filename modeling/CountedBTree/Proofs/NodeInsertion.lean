import CountedBTree.Proofs.InsertionOutcome

/-!
# What insertion into one node leaves

A node with room takes the new entry, and in a branch its right child, and counts one
entry more. A full node divides its widened run and reports the split before it does.
Either way the entries of the subtree are those before with the new one among them, in
the order given by the slot, and every check along the way passes: the shallow checks
cannot fail on parts of a widened node that is in shape but for its room.

In a branch the stored count is one short of what its children list when the insertion
arrives, because the child that split has handed its right half over already.
-/

namespace CountedBTree

variable {κ ν : Type}

/-- The insertion left a node, or two halves around a median, in shape and listing the
given entries. A node is at least as filled as one of the given size, and one of that size
was full if there are halves. -/
def Insertion.Leaves (capacities : Capacities) (height size : Nat) (contents : List (κ × ν)) :
    Insertion κ ν → Prop
  | .kept node =>
      Node.Shaped capacities height node ∧ node.toList = contents ∧ size ≤ node.size
  | .split left median right =>
      Node.Shaped capacities height left ∧ left.Filled ∧
      Node.Shaped capacities height right ∧ right.Filled ∧
      left.toList ++ median :: right.toList = contents ∧ left.capacity ≤ size

/-- The events of an insertion into one node: a full one reports its split. -/
def Node.splitEvents (node : Node κ ν) (slot : Nat) : List Event :=
  if node.isFull then [.split (SplitSide.ofSlot node.size slot) node.capacity slot] else []

namespace Node

variable {capacities : Capacities} {height total slot : Nat} {node half : Node κ ν}
variable {entries contents : List (κ × ν)} {children : List (Node κ ν)} {child : Node κ ν}
variable {entry : κ × ν} {rightChild : Option (Node κ ν)}

/-- A leaf that keeps to its room and counts its entries is in shape. -/
theorem Shaped.of_leaf (kind : half.isLeaf = true) (capacity : half.capacity = capacities.leaf)
    (fits : half.size ≤ half.capacity) (counted : half.total = half.countedTotal) :
    Shaped capacities 0 half ∧ half.toList = half.entries := by
  cases half with
  | leaf own total entries =>
    obtain rfl : own = capacities.leaf := capacity
    exact ⟨.leaf fits counted, rfl⟩
  | branch => contradiction

/-- A branch that keeps to its room and counts what its children count is in shape, over
filled children in shape. -/
theorem Shaped.of_branch (kind : half.isLeaf = false)
    (capacity : half.capacity = capacities.branch) (fits : half.size ≤ half.capacity)
    (separated : 0 < half.size) (arity : half.childrenFit = true)
    (counted : half.total = half.countedTotal)
    (shaped : ∀ child ∈ half.children, Shaped capacities height child)
    (filled : ∀ child ∈ half.children, child.Filled) :
    Shaped capacities (height + 1) half ∧
      half.toList = weave (toLists half.children) half.entries := by
  cases half with
  | leaf => contradiction
  | branch own total entries children =>
    obtain rfl : own = capacities.branch := capacity
    have paired : children.length = entries.length + 1 := childrenFit_iff.mp arity kind
    have listed := length_weave_toLists paired (fun child member => (shaped child member).total_eq)
    exact ⟨.branch fits separated paired (counted.trans listed.symm) shaped filled, rfl⟩

variable [Ord κ] [Std.TransOrd κ]

/-- An insertion leaves the widened node, or the halves that it divides into, if these are
in shape and list the entries in order: nothing is refused then. -/
theorem Receives.insertAt_leaves (receives : node.Receives slot rightChild)
    (fits : node.size ≤ node.capacity) (small : node.total + 1 < Fault.wordLimit)
    (ascending : Ascending contents)
    (kept : node.size < node.capacity →
      Shaped capacities height (node.widened slot entry rightChild) ∧
        (node.widened slot entry rightChild).toList = contents)
    (halved : ∀ left median right, Divides node slot entry rightChild left median right →
      Shaped capacities height left ∧ Shaped capacities height right ∧
        left.toList ++ median :: right.toList = contents) :
    ∃ insertion,
      node.insertAt slot entry rightChild = ⟨node.splitEvents slot, .ok insertion⟩ ∧
      insertion.Leaves capacities height node.size contents := by
  by_cases full : node.size = node.capacity
  · obtain ⟨left, median, right, divides, run⟩ := receives.insertAt_divides entry full small
    obtain ⟨leftShaped, rightShaped, joined⟩ := halved left median right divides
    have whole := divides.whole
    rw [← joined] at ascending
    have leftAscending : Ascending left.toList :=
      ascending.of_sublist (List.sublist_append_left _ _)
    have rightAscending : Ascending right.toList := ascending.of_sublist
      ((List.sublist_cons_self _ _).trans (List.sublist_append_right _ _))
    have leftChecked := leftShaped.checkShallow_ok leftAscending (by omega)
    have rightChecked := rightShaped.checkShallow_ok rightAscending (by omega)
    have leftFilled : left.Filled := ⟨divides.leftSome, divides.capacities.1 ▸ divides.leftHalf⟩
    have rightFilled : right.Filled :=
      ⟨divides.rightSome, divides.capacities.2 ▸ divides.rightHalf⟩
    refine ⟨.split left median right, ?_, leftShaped, leftFilled, rightShaped, rightFilled, joined,
      divides.capacities.1.trans full.symm |>.le⟩
    rw [run, leftChecked, rightChecked, splitEvents, if_pos (by simpa [isFull] using full)]
    rfl
  · have room : node.size < node.capacity := by omega
    obtain ⟨shaped, listed⟩ := kept room
    have checked := shaped.checkShallow_ok (by rwa [listed]) (by simpa using small)
    refine ⟨.kept (node.widened slot entry rightChild), ?_, shaped, listed, ?_⟩
    · rw [insertAt_kept entry receives.inside room receives.matching receives.place small checked,
        splitEvents, if_neg (by simpa [isFull] using full)]
      rfl
    · rw [widened_size entry rightChild receives.inside]
      exact Nat.le_succ _

/-- A leaf takes an entry and leaves its entries with the new one at the slot. -/
theorem insertAt_leaf (several : 2 ≤ capacities.leaf)
    (shaped : Shaped capacities 0 (leaf capacities.leaf total entries))
    (inside : slot ≤ entries.length) (small : total + 1 < Fault.wordLimit)
    (ascending : Ascending (entries.insertIdx slot entry)) :
    ∃ insertion,
      (leaf capacities.leaf total entries).insertAt slot entry none =
        ⟨(leaf capacities.leaf total entries).splitEvents slot, .ok insertion⟩ ∧
      insertion.Leaves capacities 0 entries.length (entries.insertIdx slot entry) := by
  have counted : total = entries.length := by simpa [Node.total, toList] using shaped.total_eq
  have receives : (leaf capacities.leaf total entries).Receives slot none :=
    ⟨several, rfl, inside, rfl, counted⟩
  apply receives.insertAt_leaves shaped.size_le small ascending
  · intro room
    obtain ⟨fits, _, same⟩ := receives.widens entry room
    exact Shaped.of_leaf rfl rfl fits same
  · intro left median right divides
    obtain ⟨leftShaped, leftListed⟩ := Shaped.of_leaf divides.kinds.1 divides.capacities.1
      divides.leftFits divides.leftCounted
    obtain ⟨rightShaped, rightListed⟩ := Shaped.of_leaf divides.kinds.2 divides.capacities.2
      divides.rightFits divides.rightCounted
    refine ⟨leftShaped, rightShaped, ?_⟩
    rw [leftListed, rightListed]
    exact divides.entries

/-- The parts of a branch that is in shape but may have no room for them. -/
structure Parts (capacities : Capacities) (height total : Nat) (entries : List (κ × ν))
    (children : List (Node κ ν)) : Prop where
  separated : 0 < entries.length
  arity : children.length = entries.length + 1
  counted : total = (weave (toLists children) entries).length
  shaped : ∀ child ∈ children, Shaped capacities height child
  filled : ∀ child ∈ children, child.Filled

/-- A branch takes the median and the right half of a child that split, and leaves what
its widened parts list. -/
theorem insertAt_branch (several : 2 ≤ capacities.branch)
    (fits : entries.length ≤ capacities.branch) (inside : slot ≤ entries.length)
    (arity : children.length = entries.length + 1)
    (parts : Parts capacities height (total + 1) (entries.insertIdx slot entry)
      (children.insertIdx (slot + 1) child))
    (small : total + 1 < Fault.wordLimit)
    (ascending : Ascending (weave (toLists (children.insertIdx (slot + 1) child))
      (entries.insertIdx slot entry))) :
    ∃ insertion,
      (branch capacities.branch total entries children).insertAt slot entry (some child) =
        ⟨(branch capacities.branch total entries children).splitEvents slot, .ok insertion⟩ ∧
      insertion.Leaves capacities (height + 1) entries.length
        (weave (toLists (children.insertIdx (slot + 1) child)) (entries.insertIdx slot entry)) := by
  obtain ⟨separated, wideArity, counted, shaped, filled⟩ := parts
  have longer := List.length_insertIdx_of_le_length inside entry
  have held : total = entries.length + totalOfAll children + child.total := by
    rw [length_weave_toLists wideArity (fun part member => (shaped part member).total_eq),
      totalOfAll_insertIdx _ _ _ (by omega), longer] at counted
    omega
  have receives : (branch capacities.branch total entries children).Receives slot (some child) :=
    ⟨several, by simpa [childrenFit] using arity, inside, rfl, held⟩
  apply receives.insertAt_leaves fits small ascending
  · intro room
    obtain ⟨wideFits, fit, same⟩ := receives.widens entry room
    exact Shaped.of_branch rfl rfl wideFits separated fit same shaped filled
  · intro left median right divides
    have united : left.children ++ right.children = children.insertIdx (slot + 1) child :=
      divides.children
    have joined : left.entries ++ median :: right.entries = entries.insertIdx slot entry :=
      divides.entries
    rw [← united] at shaped filled ⊢
    obtain ⟨leftShaped, leftListed⟩ := Shaped.of_branch divides.kinds.1 divides.capacities.1
      divides.leftFits divides.leftSome divides.leftArity divides.leftCounted
      (fun part member => shaped part (List.mem_append_left _ member))
      (fun part member => filled part (List.mem_append_left _ member))
    obtain ⟨rightShaped, rightListed⟩ := Shaped.of_branch divides.kinds.2 divides.capacities.2
      divides.rightFits divides.rightSome divides.rightArity divides.rightCounted
      (fun part member => shaped part (List.mem_append_right _ member))
      (fun part member => filled part (List.mem_append_right _ member))
    have leftPaired := childrenFit_iff.mp divides.leftArity divides.kinds.1
    have rightPaired := childrenFit_iff.mp divides.rightArity divides.kinds.2
    refine ⟨leftShaped, rightShaped, ?_⟩
    rw [leftListed, rightListed, ← joined]
    exact (weave_divide _ _ _ _ median leftPaired (by omega)).symm

end Node

end CountedBTree
