import CountedBTree.Proofs.Division
import CountedBTree.Proofs.NodeCheck

/-!
# The outcome of an insertion into one node

Which entries and children go where is decided by the slot alone. A node with room takes the
entry at the slot and the right child directly after it. A full one divides that widened run
around a median, and its children along with it, into halves of the same capacity and kind
that differ by one entry at most and count what they hold.

Whether the outcome is handed back is decided afterwards, by the shallow check of the node or
of both halves. Capacity, arity and counts are right by then, so the check depends on the
order of the entries, and on that of each half rather than on that of the whole run: nothing
compares the median with the halves.
-/

namespace CountedBTree

variable {κ ν : Type}

namespace Node

/-- The stored counts of two rows of nodes add up. -/
theorem totalOfAll_append (front back : List (Node κ ν)) :
    totalOfAll (front ++ back) = totalOfAll front + totalOfAll back := by
  induction front with
  | nil => simp [totalOfAll]
  | cons node rest inductionHypothesis => simp [totalOfAll, inductionHypothesis, Nat.add_assoc]

/-- A node put into a row adds its stored count. -/
theorem totalOfAll_insertIdx (children : List (Node κ ν)) (child : Node κ ν) (place : Nat)
    (inside : place ≤ children.length) :
    totalOfAll (children.insertIdx place child) = totalOfAll children + child.total := by
  have whole := totalOfAll_append (children.take place) (children.drop place)
  rw [List.take_append_drop] at whole
  rw [insertIdx_eq_take_drop _ _ _ inside, totalOfAll_append, totalOfAll, whole]
  omega

/-- The node with an entry at `slot` and a right child directly after it, counting one entry
more. -/
def widened (node : Node κ ν) (slot : Nat) (entry : κ × ν) (rightChild : Option (Node κ ν)) :
    Node κ ν :=
  ((node.withEntries (node.entries.insertIdx slot entry)).withChildren
    (node.widenedChildren slot rightChild)).withTotal (node.total + 1)

/-- An insertion counts for the node. -/
@[simp] theorem widened_total (node : Node κ ν) (slot : Nat) (entry : κ × ν)
    (rightChild : Option (Node κ ν)) :
    (node.widened slot entry rightChild).total = node.total + 1 := by
  cases node <;> rfl

/-- The widened node has one entry more. -/
theorem widened_size {node : Node κ ν} {slot : Nat} (entry : κ × ν)
    (rightChild : Option (Node κ ν)) (inside : slot ≤ node.size) :
    (node.widened slot entry rightChild).size = node.size + 1 := by
  cases node <;> exact List.length_insertIdx_of_le_length inside entry

/-- What an insertion into one node starts from. The stored count includes the right child
already, as it comes out of a child that has been counted. -/
structure Receives (node : Node κ ν) (slot : Nat) (rightChild : Option (Node κ ν)) : Prop where
  several : 2 ≤ node.capacity
  arity : node.childrenFit = true
  inside : slot ≤ node.size
  matching : node.isLeaf = rightChild.isNone
  counted : node.total = node.countedTotal + rightChild.elim 0 total

/-- Two halves and a median that a node divides into when an entry arrives at `slot`. -/
structure Divides (node : Node κ ν) (slot : Nat) (entry : κ × ν) (rightChild : Option (Node κ ν))
    (left : Node κ ν) (median : κ × ν) (right : Node κ ν) : Prop where
  entries : left.entries ++ median :: right.entries = node.entries.insertIdx slot entry
  children : left.children ++ right.children = node.widenedChildren slot rightChild
  leftArity : left.childrenFit = true
  rightArity : right.childrenFit = true
  even : left.size ≤ right.size + 1 ∧ right.size ≤ left.size + 1
  leftFits : left.size ≤ left.capacity
  rightFits : right.size ≤ right.capacity
  leftSome : 0 < left.size
  rightSome : 0 < right.size
  leftHalf : node.capacity / 2 ≤ left.size
  rightHalf : node.capacity / 2 ≤ right.size
  capacities : left.capacity = node.capacity ∧ right.capacity = node.capacity
  kinds : left.isLeaf = node.isLeaf ∧ right.isLeaf = node.isLeaf
  leftCounted : left.total = left.countedTotal
  rightCounted : right.total = right.countedTotal
  whole : left.total + 1 + right.total = node.total + 1

variable {node : Node κ ν} {slot : Nat} {rightChild : Option (Node κ ν)}

/-- The children fit when a branch has one more than it has entries. -/
theorem childrenFit_iff :
    node.childrenFit = true ↔ (node.isLeaf = false → node.children.length = node.size + 1) := by
  cases node with
  | leaf => simp [childrenFit, isLeaf]
  | branch => simp [childrenFit, isLeaf, Node.children, size, Node.entries]

/-- The children of the widened node and the right child count for the node. -/
theorem Receives.totalOfAll_widened (receives : node.Receives slot rightChild) :
    totalOfAll (node.widenedChildren slot rightChild) =
      totalOfAll node.children + rightChild.elim 0 total := by
  cases rightChild with
  | none => rfl
  | some child =>
    have arity := childrenFit_iff.mp receives.arity receives.matching
    have inside := receives.inside
    exact totalOfAll_insertIdx node.children child (slot + 1) (by omega)

/-- Halves of a full node, each counting what it holds, are what the node divides into. They
differ by one entry at most, so both keep to its room and hold half of it. -/
theorem Receives.divides {entry median : κ × ν} {left right : Node κ ν}
    (receives : node.Receives slot rightChild) (full : node.size = node.capacity)
    (halves : Halves node slot entry rightChild left median right) :
    Divides node slot entry rightChild (left.withTotal (left.size + totalOfAll left.children))
      median (right.withTotal (right.size + totalOfAll right.children)) := by
  obtain ⟨sizes, even⟩ := halves.even receives.inside
  have several := receives.several
  have counted := receives.counted
  have nodeArity := childrenFit_iff.mp receives.arity
  have shares : totalOfAll left.children + totalOfAll right.children =
      totalOfAll node.children + rightChild.elim 0 total := by
    rw [← totalOfAll_append, halves.children, receives.totalOfAll_widened]
  have rows (nested : node.isLeaf = false) :
      left.children.length + right.children.length = node.children.length + 1 := by
    obtain ⟨child, rfl⟩ : ∃ child, rightChild = some child := by
      rw [receives.matching] at nested
      exact Option.isSome_iff_exists.mp (by simpa using nested)
    have arity := nodeArity nested
    have inside := receives.inside
    rw [← List.length_append, halves.children]
    exact List.length_insertIdx_of_le_length (by omega) child
  constructor
  case entries => simpa using halves.entries
  case children => simpa using halves.children
  case leftArity => exact childrenFit_iff.mpr (by simpa using halves.row)
  case rightArity =>
    refine childrenFit_iff.mpr (fun nested => ?_)
    have nested : node.isLeaf = false := by simpa [halves.kinds.2] using nested
    have leftArity := halves.row (halves.kinds.1.trans nested)
    have both := rows nested
    have arity := nodeArity nested
    simp only [children_withTotal, size_withTotal]
    omega
  case even => simpa using even
  case leftFits =>
    simp only [size_withTotal, capacity_withTotal, halves.capacities.1]
    omega
  case rightFits =>
    simp only [size_withTotal, capacity_withTotal, halves.capacities.2]
    omega
  case leftSome =>
    simp only [size_withTotal]
    omega
  case rightSome =>
    simp only [size_withTotal]
    omega
  case leftHalf =>
    simp only [size_withTotal]
    omega
  case rightHalf =>
    simp only [size_withTotal]
    omega
  case capacities => simpa using halves.capacities
  case kinds => simpa using halves.kinds
  case leftCounted => simp [countedTotal]
  case rightCounted => simp [countedTotal]
  case whole =>
    simp only [total_withTotal, countedTotal] at counted ⊢
    omega

/-- A node with room takes the entry and the right child as they are. -/
theorem insertEntry_widens (entry : κ × ν) (inside : slot ≤ node.size)
    (room : node.size < node.capacity) (matching : node.isLeaf = rightChild.isNone)
    (reached : rightChild.isSome = true → slot + 1 ≤ node.children.length) :
    node.insertEntry slot entry rightChild =
      .ok ((node.withEntries (node.entries.insertIdx slot entry)).withChildren
        (node.widenedChildren slot rightChild)) := by
  cases rightChild with
  | none =>
    cases node with
    | leaf => simp [insertEntry, isLeaf, inside, room, withEntries, withChildren]
    | branch => simp [isLeaf] at matching
  | some child =>
    have place := reached rfl
    simp [insertEntry, matching, inside, room, place, widenedChildren]

/-- There is a place for the right child. -/
theorem Receives.place (receives : node.Receives slot rightChild)
    (given : rightChild.isSome = true) : slot + 1 ≤ node.children.length := by
  obtain ⟨_, arity, inside, matching, _⟩ := receives
  cases node with
  | leaf capacity total entries => cases rightChild <;> simp [isLeaf] at matching given
  | branch capacity total entries children =>
    have paired : children.length = entries.length + 1 := by simpa [childrenFit] using arity
    have within : slot ≤ entries.length := inside
    simp only [Node.children]
    omega

/-- With room, the widened node keeps to it, its children fit, and it counts what it holds. -/
theorem Receives.widens (entry : κ × ν) (receives : node.Receives slot rightChild)
    (room : node.size < node.capacity) :
    (node.widened slot entry rightChild).size ≤ (node.widened slot entry rightChild).capacity ∧
      (node.widened slot entry rightChild).childrenFit = true ∧
      (node.widened slot entry rightChild).total =
        (node.widened slot entry rightChild).countedTotal := by
  obtain ⟨_, arity, inside, matching, counted⟩ := receives
  have larger := widened_size entry rightChild inside
  cases node with
  | leaf capacity total entries =>
    obtain rfl : rightChild = none := by simpa [isLeaf] using matching.symm
    have count : total = entries.length := counted
    refine ⟨larger ▸ room, rfl, ?_⟩
    rw [countedTotal, larger, widened_total]
    exact congrArg Nat.succ count
  | branch capacity total entries children =>
    cases rightChild with
    | none => simp [isLeaf] at matching
    | some child =>
      have paired : children.length = entries.length + 1 := by simpa [childrenFit] using arity
      have within : slot ≤ entries.length := inside
      have place : slot + 1 ≤ children.length := by omega
      have count : total = entries.length + totalOfAll children + child.total := counted
      have wider := List.length_insertIdx_of_le_length place child
      have sum := totalOfAll_insertIdx children child (slot + 1) place
      have longer : (entries.insertIdx slot entry).length = entries.length + 1 := larger
      refine ⟨larger ▸ room, ?_, ?_⟩
      · simp only [widened, widenedChildren, withEntries, withChildren, withTotal, childrenFit,
          Node.entries, Node.children, Option.elim, beq_iff_eq]
        omega
      · simp only [widened, widenedChildren, countedTotal, size, withEntries, withChildren,
          withTotal, Node.entries, Node.total, Node.children, Option.elim]
        omega

variable [Ord κ]

/-- Without a split, what is left to do is to check the widened node. -/
theorem insertAt_room (entry : κ × ν) (inside : slot ≤ node.size) (room : node.size < node.capacity)
    (matching : node.isLeaf = rightChild.isNone)
    (reached : rightChild.isSome = true → slot + 1 ≤ node.children.length)
    (small : node.total + 1 < Fault.wordLimit) :
    node.insertAt slot entry rightChild = (do
      (node.widened slot entry rightChild).checkShallow
      pure (.kept (node.widened slot entry rightChild))) := by
  have notFull : node.isFull = false := by
    simp only [isFull, beq_eq_false_iff_ne]
    omega
  have taken := insertEntry_widens entry inside room matching reached
  have same : ((node.withEntries (node.entries.insertIdx slot entry)).withChildren
      (node.widenedChildren slot rightChild)).total = node.total := by cases node <;> rfl
  simp only [insertAt, inside, notFull, taken, countInsertion, same, checkedSum, small,
    ↓reduceIte, Bool.false_eq_true, Traced.lift_ok, pure_bind, Checked.ok_bind, Checked.pure_eq,
    widened]

/-- Without a split, a widened node that passes its check is handed back. -/
theorem insertAt_kept (entry : κ × ν) (inside : slot ≤ node.size) (room : node.size < node.capacity)
    (matching : node.isLeaf = rightChild.isNone)
    (reached : rightChild.isSome = true → slot + 1 ≤ node.children.length)
    (small : node.total + 1 < Fault.wordLimit)
    (checked : (node.widened slot entry rightChild).checkShallow = .ok ()) :
    node.insertAt slot entry rightChild = pure (.kept (node.widened slot entry rightChild)) := by
  rw [insertAt_room entry inside room matching reached small, checked, Traced.lift_ok, pure_bind]

/-- With a split, the halves are settled from the left: the left half counts itself, and
the right half takes what the median leaves of the whole count. What is left to do then is to
check both. -/
theorem insertAt_halves (node left right : Node κ ν) (slot below rightTotal : Nat)
    (entry median : κ × ν) (inside : slot ≤ node.size) (full : node.size = node.capacity)
    (matching : node.isLeaf = rightChild.isNone) (small : node.total + 1 < Fault.wordLimit)
    (halves : node.divide slot entry rightChild (SplitSide.ofSlot node.size slot) =
      .ok (left, median, right))
    (children : left.childrenTotal (left.size + 1) = .ok below)
    (whole : left.size + below + 1 + rightTotal = node.total + 1)
    (even : left.size ≤ right.size + 1 ∧ right.size ≤ left.size + 1) :
    node.insertAt slot entry rightChild = (do
      Traced.report (.split (SplitSide.ofSlot node.size slot) node.capacity slot)
      (left.withTotal (left.size + below)).checkShallow
      (right.withTotal rightTotal).checkShallow
      pure (.split (left.withTotal (left.size + below)) median (right.withTotal rightTotal))) := by
  have isFull : node.isFull = true := by simpa [Node.isFull] using full
  have leftSmall : left.size + below < Fault.wordLimit := by omega
  have enough : left.size + below + 1 ≤ node.total + 1 := by omega
  have remains : node.total + 1 - (left.size + below + 1) = rightTotal := by omega
  simp only [insertAt, splitInsert, inside, isFull, matching, checkedSum, small, halves, children,
    leftSmall, enough, remains, even, and_self, ↓reduceIte, pure_bind, Traced.lift_ok]

/-- A node whose count has no room for one entry more refuses an insertion for that. -/
theorem insertAt_overflow (entry : κ × ν) (inside : slot ≤ node.size)
    (fits : node.size ≤ node.capacity) (matching : node.isLeaf = rightChild.isNone)
    (reached : rightChild.isSome = true → slot + 1 ≤ node.children.length)
    (exceeded : Fault.wordLimit ≤ node.total + 1) :
    node.insertAt slot entry rightChild = Traced.refuse .sumTooLarge := by
  have tooLarge : ¬ node.total + 1 < Fault.wordLimit := Nat.not_lt.mpr exceeded
  by_cases full : node.isFull = true
  · simp [insertAt, inside, full, splitInsert, matching, checkedSum, tooLarge]
  · have room : node.size < node.capacity := by
      have differs : node.size ≠ node.capacity := by simpa [isFull] using full
      omega
    have taken := insertEntry_widens entry inside room matching reached
    have same : ((node.withEntries (node.entries.insertIdx slot entry)).withChildren
        (node.widenedChildren slot rightChild)).total = node.total := by cases node <;> rfl
    simp [insertAt, inside, full, taken, countInsertion, same, checkedSum, tooLarge]

/-- A node with more entries than it has room for refuses an insertion for that. -/
theorem insertAt_overfull (entry : κ × ν) (inside : slot ≤ node.size)
    (overfull : node.capacity < node.size) (matching : node.isLeaf = rightChild.isNone) :
    node.insertAt slot entry rightChild = Traced.refuse .insertIntoFull := by
  have notFull : node.isFull = false := by
    simp only [isFull, beq_eq_false_iff_ne]
    omega
  have noRoom : ¬ node.size < node.capacity := by omega
  simp [insertAt, inside, notFull, insertEntry, matching, noRoom]

/-- With a split, what is left to do is to check both halves. -/
theorem Receives.insertAt_divides (entry : κ × ν) (receives : node.Receives slot rightChild)
    (full : node.size = node.capacity) (small : node.total + 1 < Fault.wordLimit) :
    ∃ left median right, Divides node slot entry rightChild left median right ∧
      node.insertAt slot entry rightChild = (do
        Traced.report (.split (SplitSide.ofSlot node.size slot) node.capacity slot)
        left.checkShallow
        right.checkShallow
        pure (.split left median right)) := by
  have nodeArity := childrenFit_iff.mp receives.arity
  obtain ⟨left, median, right, divided, halves⟩ := divide_halves entry full
    (full ▸ receives.several) receives.inside receives.matching nodeArity
  have divides := receives.divides full halves
  have whole := divides.whole
  simp only [total_withTotal] at whole
  have below : left.childrenTotal (left.size + 1) = .ok (totalOfAll left.children) := by
    cases left with
    | leaf => rfl
    | branch leftCapacity leftTotal entries children =>
      have arity : children.length = entries.length + 1 := halves.row rfl
      have word : totalOfAll children < Fault.wordLimit := by
        simp only [Node.children] at whole
        omega
      simp [childrenTotal, size, Node.entries, Node.children, ← arity, checkedSum, word]
  exact ⟨_, median, _, divides, insertAt_halves node left right slot (totalOfAll left.children)
    (right.size + totalOfAll right.children) entry median receives.inside full receives.matching
    small divided below whole (by simpa using divides.even)⟩

variable [Std.TransOrd κ]

/-- An insertion into one node, whatever the slot and the entry. A node with room is handed
back widened; a full one divides around a median. What is handed back has to be in order
node by node, and its count must be a machine word; an insertion is refused for nothing else,
unless the node held more than it has room for to begin with. -/
theorem insertAt_outcome (entry : κ × ν) (receives : node.Receives slot rightChild) :
    (node.size < node.capacity → node.total + 1 < Fault.wordLimit →
      (Ascending (node.widened slot entry rightChild).entries →
        node.insertAt slot entry rightChild = pure (.kept (node.widened slot entry rightChild))) ∧
      (¬ Ascending (node.widened slot entry rightChild).entries →
        node.insertAt slot entry rightChild = Traced.refuse .unordered)) ∧
    (node.size = node.capacity → node.total + 1 < Fault.wordLimit →
      ∃ left median right, Divides node slot entry rightChild left median right ∧
        (Ascending left.entries ∧ Ascending right.entries →
          node.insertAt slot entry rightChild =
            ⟨[.split (SplitSide.ofSlot node.size slot) node.capacity slot],
              .ok (.split left median right)⟩) ∧
        (¬ (Ascending left.entries ∧ Ascending right.entries) →
          node.insertAt slot entry rightChild =
            ⟨[.split (SplitSide.ofSlot node.size slot) node.capacity slot],
              .error .unordered⟩)) ∧
    (node.size ≤ node.capacity → Fault.wordLimit ≤ node.total + 1 →
      node.insertAt slot entry rightChild = Traced.refuse .sumTooLarge) ∧
    (node.capacity < node.size →
      node.insertAt slot entry rightChild = Traced.refuse .insertIntoFull) := by
  refine ⟨?_, ?_, ?_, ?_⟩
  · intro room small
    obtain ⟨fits, arity, counted⟩ := receives.widens entry room
    have word : (node.widened slot entry rightChild).total < Fault.wordLimit := by
      simpa using small
    obtain ⟨passes, fails⟩ := checkShallow_cases fits arity counted word
    rw [insertAt_room entry receives.inside room receives.matching receives.place small]
    constructor
    · intro ascending
      rw [passes ascending, Traced.lift_ok, pure_bind]
    · intro unordered
      rw [fails unordered, Traced.lift_error, Traced.refuse_bind]
  · intro full small
    obtain ⟨left, median, right, divides, run⟩ := receives.insertAt_divides entry full small
    have whole := divides.whole
    obtain ⟨leftPasses, leftFails⟩ := checkShallow_cases divides.leftFits divides.leftArity
      divides.leftCounted (by omega)
    obtain ⟨rightPasses, rightFails⟩ := checkShallow_cases divides.rightFits divides.rightArity
      divides.rightCounted (by omega)
    rw [run]
    refine ⟨left, median, right, divides, ?_, ?_⟩
    · rintro ⟨leftAscending, rightAscending⟩
      rw [leftPasses leftAscending, rightPasses rightAscending]
      rfl
    · intro unordered
      by_cases leftAscending : Ascending left.entries
      · have rightUnordered : ¬ Ascending right.entries :=
          fun rightAscending => unordered ⟨leftAscending, rightAscending⟩
        rw [leftPasses leftAscending, rightFails rightUnordered]
        rfl
      · rw [leftFails leftAscending]
        rfl
  · intro fits exceeded
    exact insertAt_overflow entry receives.inside fits receives.matching receives.place exceeded
  · intro overfull
    exact insertAt_overfull entry receives.inside overfull receives.matching

/-- The median of a child joins a full branch on the right, where the child stood. -/
theorem insertAt_outcome_branch :
    let node : Node Nat Nat :=
      .branch 2 6 [(2, 0), (4, 0)] [.leaf 2 1 [(1, 0)], .leaf 2 1 [(3, 0)], .leaf 2 1 [(5, 0)]]
    let child : Node Nat Nat := .leaf 2 1 [(7, 0)]
    node.Receives 2 (some child) ∧ ∃ left median right,
      Divides node 2 (6, 0) (some child) left median right ∧
        node.insertAt 2 (6, 0) (some child) =
          ⟨[.split .rightOfMedian 2 2], .ok (.split left median right)⟩ := by
  intro node child
  have receives : node.Receives 2 (some child) := ⟨by decide, rfl, by decide, rfl, rfl⟩
  obtain ⟨_, splits, _⟩ := insertAt_outcome (6, 0) receives
  obtain ⟨left, median, right, divides, passes, _⟩ := splits rfl (by decide)
  have ascending : Ascending [(2, 0), (4, 0), (6, 0)] := (ascending_iff _).mp rfl
  have joined : left.entries ++ median :: right.entries = [(2, 0), (4, 0), (6, 0)] :=
    divides.entries
  rw [← joined] at ascending
  have leftAscending := ascending.of_sublist (List.sublist_append_left _ _)
  have rightAscending := ascending.of_sublist
    ((List.sublist_cons_self _ _).trans (List.sublist_append_right _ _))
  have side : SplitSide.ofSlot node.size 2 = .rightOfMedian := by decide
  rw [side] at passes
  exact ⟨receives, left, median, right, divides, passes ⟨leftAscending, rightAscending⟩⟩

/-- A leaf with room refuses an entry that would put it out of order, and a branch with room
one that its count has no room for. -/
theorem insertAt_refuses :
    let low : Node Nat Nat := .leaf 2 1 [(5, 0)]
    let crowded : Node Nat Nat := .branch 2 0xffffffffffffffff [(5, 0)]
      [.leaf 2 0xfffffffffffffffe [], .leaf 2 0 []]
    (low.Receives 1 none ∧ low.isFull = false ∧
      low.insertAt 1 (3, 0) none = Traced.refuse .unordered) ∧
    crowded.Receives 1 (some (.leaf 2 0 [])) ∧ crowded.isFull = false ∧
      crowded.insertAt 1 (7, 0) (some (.leaf 2 0 [])) = Traced.refuse .sumTooLarge := by
  intro low crowded
  have receives : crowded.Receives 1 (some (.leaf 2 0 [])) :=
    ⟨by decide, rfl, by decide, rfl, by decide⟩
  refine ⟨⟨⟨by decide, rfl, by decide, rfl, rfl⟩, rfl, rfl⟩, receives, rfl, ?_⟩
  exact insertAt_overflow (7, 0) receives.inside (by decide) rfl receives.place (by decide)

end Node

end CountedBTree
