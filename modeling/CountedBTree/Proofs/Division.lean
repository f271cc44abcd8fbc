import CountedBTree.Node.Insertion
import CountedBTree.Proofs.Shape

/-!
# Dividing a full node

A full node that takes one entry more has a widened run: its own entries with the new
one put in at the slot. Whichever side of the median the slot falls on, the moves that
divide the node cut that one run, at a size which depends on the side only, and the
children are cut along with it. So nothing is lost or exchanged in any of the three cases,
and the sizes of the halves can be read off the place of the cut.

A move takes a stretch out of a run. It is told on a run written as the part before the
stretch, the stretch, and the part after it, so a sequence of moves is followed by naming
the parts once.
-/

namespace CountedBTree

variable {α κ ν : Type}

/-- How many entries the left half takes of a widened run. -/
def SplitSide.leftSize (size : Nat) : SplitSide → Nat
  | .atMedian => size / 2
  | .rightOfMedian => size / 2
  | .leftOfMedian => (size - 1) / 2 + 1

/-- A slot of a run falls on the side that it is compared to. -/
theorem SplitSide.ofSlot_cases (size slot : Nat) :
    (slot < size / 2 ∧ SplitSide.ofSlot size slot = .leftOfMedian) ∨
      (slot = size / 2 ∧ SplitSide.ofSlot size slot = .atMedian) ∨
      size / 2 < slot ∧ SplitSide.ofSlot size slot = .rightOfMedian := by
  simp only [SplitSide.ofSlot]
  split_ifs <;> simp <;> omega

/-- A run has parts of all lengths that make up its own. -/
theorem exists_parts {run : List α} {first second third : Nat}
    (whole : run.length = first + second + third) :
    ∃ front middle back, run = front ++ (middle ++ back) ∧ front.length = first ∧
      middle.length = second ∧ back.length = third := by
  refine ⟨run.take first, (run.drop first).take second, run.drop (first + second), ?_, ?_, ?_, ?_⟩
  · rw [← List.drop_drop, List.take_append_drop, List.take_append_drop]
  all_goals
    simp only [List.length_take, List.length_drop]
    omega

/-- What is put in behind a front stands between the front and the rest. -/
theorem insertIdx_behind (front back : List α) (element : α) :
    (front ++ back).insertIdx front.length element = front ++ element :: back := by
  rw [insertIdx_back _ _ _ _ (Nat.le_refl _), Nat.sub_self, List.insertIdx_zero]

namespace Node

/-! ## Parts of a changed node -/

section Parts

variable (node : Node κ ν) (entries further : List (κ × ν)) (children later : List (Node κ ν))

@[simp] theorem entries_withEntries : (node.withEntries entries).entries = entries := by
  cases node <;> rfl

@[simp] theorem children_withEntries : (node.withEntries entries).children = node.children := by
  cases node <;> rfl

@[simp] theorem capacity_withEntries : (node.withEntries entries).capacity = node.capacity := by
  cases node <;> rfl

@[simp] theorem isLeaf_withEntries : (node.withEntries entries).isLeaf = node.isLeaf := by
  cases node <;> rfl

@[simp] theorem size_withEntries : (node.withEntries entries).size = entries.length := by
  cases node <;> rfl

@[simp] theorem entries_withChildren : (node.withChildren children).entries = node.entries := by
  cases node <;> rfl

@[simp] theorem capacity_withChildren :
    (node.withChildren children).capacity = node.capacity := by
  cases node <;> rfl

@[simp] theorem isLeaf_withChildren : (node.withChildren children).isLeaf = node.isLeaf := by
  cases node <;> rfl

/-- A branch takes the children it is given. -/
theorem children_withChildren {node : Node κ ν} (nested : node.isLeaf = false) :
    (node.withChildren children).children = children := by
  cases node with
  | leaf => simp [isLeaf] at nested
  | branch => rfl

/-- A leaf has no children. -/
theorem children_of_leaf {node : Node κ ν} (alone : node.isLeaf = true) : node.children = [] := by
  cases node with
  | leaf => rfl
  | branch => simp [isLeaf] at alone

/-- A leaf takes no children. -/
theorem withChildren_of_leaf {node : Node κ ν} (alone : node.isLeaf = true) :
    node.withChildren children = node := by
  cases node with
  | leaf => rfl
  | branch => simp [isLeaf] at alone

@[simp] theorem withEntries_withEntries :
    (node.withEntries entries).withEntries further = node.withEntries further := by
  cases node <;> rfl

@[simp] theorem withEntries_withChildren :
    (node.withChildren children).withEntries entries =
      (node.withEntries entries).withChildren children := by
  cases node <;> rfl

@[simp] theorem withChildren_withChildren :
    (node.withChildren children).withChildren later = node.withChildren later := by
  cases node <;> rfl

@[simp] theorem size_withChildren : (node.withChildren children).size = node.size := by
  cases node <;> rfl

@[simp] theorem entries_withTotal (total : Nat) :
    (node.withTotal total).entries = node.entries := by
  cases node <;> rfl

@[simp] theorem children_withTotal (total : Nat) :
    (node.withTotal total).children = node.children := by
  cases node <;> rfl

@[simp] theorem total_withTotal (total : Nat) : (node.withTotal total).total = total := by
  cases node <;> rfl

@[simp] theorem size_withTotal (total : Nat) : (node.withTotal total).size = node.size := by
  cases node <;> rfl

@[simp] theorem capacity_withTotal (total : Nat) :
    (node.withTotal total).capacity = node.capacity := by
  cases node <;> rfl

@[simp] theorem isLeaf_withTotal (total : Nat) : (node.withTotal total).isLeaf = node.isLeaf := by
  cases node <;> rfl

@[simp] theorem entries_emptied : node.emptied.entries = [] := by
  cases node <;> rfl

@[simp] theorem children_emptied : node.emptied.children = [] := by
  cases node <;> rfl

@[simp] theorem size_emptied : node.emptied.size = 0 := by
  cases node <;> rfl

@[simp] theorem capacity_emptied : node.emptied.capacity = node.capacity := by
  cases node <;> rfl

@[simp] theorem isLeaf_emptied : node.emptied.isLeaf = node.isLeaf := by
  cases node <;> rfl

end Parts

/-! ## Moves -/

section Moves

variable {node source target : Node κ ν} {start count : Nat}

/-- Moving a stretch of entries leaves the parts around it. -/
theorem moveEntries_parts (front moved back : List (κ × ν)) {kept gathered : List (κ × ν)}
    (parts : source.entries = front ++ (moved ++ back)) (starts : front.length = start)
    (counts : moved.length = count) (room : target.size + count ≤ target.capacity)
    (left : front ++ back = kept) (right : target.entries ++ moved = gathered) :
    source.moveEntries target start count =
      .ok (source.withEntries kept, target.withEntries gathered) := by
  subst starts counts left right
  have inside : front.length + moved.length ≤ source.size := by
    simp only [size, parts, List.length_append]
    omega
  have rest : (front ++ (moved ++ back)).drop (front.length + moved.length) = back := by
    simp [← List.append_assoc, ← List.length_append]
  simp [moveEntries, inside, room, parts, rest]

/-- Moving a stretch of children leaves the parts around it. -/
theorem moveChildren_parts (front moved back : List (Node κ ν)) {kept gathered : List (Node κ ν)}
    (parts : source.children = front ++ (moved ++ back)) (starts : front.length = start)
    (counts : moved.length = count) (nested : source.isLeaf = false ∧ target.isLeaf = false)
    (room : target.children.length + count ≤ target.capacity + 1)
    (left : front ++ back = kept) (right : target.children ++ moved = gathered) :
    source.moveChildren target start count =
      .ok (source.withChildren kept, target.withChildren gathered) := by
  subst starts counts left right
  have rest : (front ++ (moved ++ back)).drop (front.length + moved.length) = back := by
    simp [← List.append_assoc, ← List.length_append]
  simp [moveChildren, nested, room, parts, rest]

/-- Taking out the last entry leaves those before it. -/
theorem popEntry_parts {front : List (κ × ν)} {last : κ × ν}
    (parts : node.entries = front ++ [last]) :
    node.popEntry = .ok (last, node.withEntries front) := by
  simp [popEntry, parts]

end Moves

/-! ## Halves -/

/-- The children with a right child, if there is one, directly after an entry at `slot`. -/
def widenedChildren (node : Node κ ν) (slot : Nat) (rightChild : Option (Node κ ν)) :
    List (Node κ ν) :=
  rightChild.elim node.children (node.children.insertIdx (slot + 1))

/-- Two nodes like a full one that hold its widened run around a median, with the children cut
where the entries are. -/
structure Halves (node : Node κ ν) (slot : Nat) (entry : κ × ν) (rightChild : Option (Node κ ν))
    (left : Node κ ν) (median : κ × ν) (right : Node κ ν) : Prop where
  entries : left.entries ++ median :: right.entries = node.entries.insertIdx slot entry
  children : left.children ++ right.children = node.widenedChildren slot rightChild
  cut : left.size = (SplitSide.ofSlot node.size slot).leftSize node.size
  row : left.isLeaf = false → left.children.length = left.size + 1
  capacities : left.capacity = node.capacity ∧ right.capacity = node.capacity
  kinds : left.isLeaf = node.isLeaf ∧ right.isLeaf = node.isLeaf

section Division

variable {node : Node κ ν} {slot : Nat} {entry median : κ × ν} {rightChild : Option (Node κ ν)}
variable {front between back : List (κ × ν)} {left middle right : List (Node κ ν)}

/-- At the median, a node keeps what is in front of the entry, with the children there. -/
theorem divideAtMedian_parts (full : node.size = node.capacity)
    (matching : node.isLeaf = rightChild.isNone) (held : node.entries = front ++ back)
    (cut : front.length = node.size / 2)
    (row : node.isLeaf = false → node.children = left ++ right ∧
      left.length = front.length + 1 ∧ right.length = back.length) :
    node.divideAtMedian entry rightChild =
      .ok ((node.withEntries front).withChildren left, entry,
        (node.emptied.withEntries back).withChildren (rightChild.toList ++ right)) := by
  have count : node.size = front.length + back.length := by simp [size, held]
  have moved : node.moveEntries node.emptied (node.size / 2) (node.size - node.size / 2) =
      .ok (node.withEntries front, node.emptied.withEntries back) :=
    moveEntries_parts front back [] (by simp [held]) cut (by omega) (by simp; omega) (by simp)
      (by simp)
  simp only [divideAtMedian, moved, Checked.ok_bind]
  cases rightChild with
  | none =>
    have alone : node.isLeaf = true := matching
    simp [withChildren_of_leaf, alone]
  | some child =>
    have nested : node.isLeaf = false := matching
    obtain ⟨children, near, far⟩ := row nested
    have followed : (node.withEntries front).moveChildren
        ((node.emptied.withEntries back).withChildren [child]) (node.size / 2 + 1)
          (node.size - node.size / 2) =
        .ok ((node.withEntries front).withChildren left,
          ((node.emptied.withEntries back).withChildren [child]).withChildren (child :: right)) :=
      moveChildren_parts left right [] (by simp [children]) (by omega) (by omega) (by simp [nested])
        (by simp [nested, children_withChildren]; omega) (by simp)
        (by simp [nested, children_withChildren])
    simp [appendChild, nested, followed]

/-- Behind the median, a node gives away what is behind its upper median, and the right half is
gathered around the entry. -/
theorem divideRightOfMedian_parts (full : node.size = node.capacity)
    (matching : node.isLeaf = rightChild.isNone)
    (held : node.entries = front ++ median :: (between ++ back))
    (cut : front.length = node.size / 2)
    (place : slot = front.length + 1 + between.length)
    (row : node.isLeaf = false → node.children = left ++ (middle ++ right) ∧
      left.length = front.length + 1 ∧ middle.length = between.length + 1 ∧
        right.length = back.length) :
    node.divideRightOfMedian slot entry rightChild =
      .ok ((node.withEntries front).withChildren left, median,
        (node.emptied.withEntries (between ++ entry :: back)).withChildren
          (middle ++ (rightChild.toList ++ right))) := by
  have count : node.size = front.length + 1 + between.length + back.length := by
    simp [size, held]
    omega
  have moved : node.moveEntries node.emptied (node.size / 2 + 1) (slot - node.size / 2 - 1) =
      .ok (node.withEntries (front ++ median :: back), node.emptied.withEntries between) :=
    moveEntries_parts (front ++ [median]) between back (by simp [held]) (by simp [cut]) (by omega)
      (by simp; omega) (by simp) (by simp)
  have movedOn : (node.withEntries (front ++ median :: back)).moveEntries
      (node.emptied.withEntries (between ++ [entry])) (node.size / 2 + 1) (node.size - slot) =
      .ok ((node.withEntries (front ++ median :: back)).withEntries (front ++ [median]),
        (node.emptied.withEntries (between ++ [entry])).withEntries (between ++ entry :: back)) :=
    moveEntries_parts (front ++ [median]) back [] (by simp) (by simp [cut]) (by omega)
      (by simp; omega) (by simp) (by simp)
  have popped (node : Node κ ν) : (node.withEntries (front ++ [median])).popEntry =
      .ok (median, node.withEntries front) := by
    simpa using popEntry_parts (entries_withEntries node (front ++ [median]))
  simp only [divideRightOfMedian, moved, Checked.ok_bind, appendEntry, entries_withEntries,
    withEntries_withEntries, movedOn]
  cases rightChild with
  | none =>
    have alone : node.isLeaf = true := matching
    simp [withChildren_of_leaf, alone, popped]
  | some child =>
    have nested : node.isLeaf = false := matching
    obtain ⟨children, near, beside, far⟩ := row nested
    have followed : (node.withEntries (front ++ [median])).moveChildren
        (node.emptied.withEntries (between ++ entry :: back)) (node.size / 2 + 1)
          (slot - node.size / 2) =
        .ok ((node.withEntries (front ++ [median])).withChildren (left ++ right),
          (node.emptied.withEntries (between ++ entry :: back)).withChildren middle) :=
      moveChildren_parts left middle right (by simp [children]) (by omega) (by omega)
        (by simp [nested]) (by simp; omega) (by simp) (by simp)
    have followedOn : ((node.withEntries (front ++ [median])).withChildren
          (left ++ right)).moveChildren
        ((node.emptied.withEntries (between ++ entry :: back)).withChildren (middle ++ [child]))
          (node.size / 2 + 1) (node.size - slot) =
        .ok (((node.withEntries (front ++ [median])).withChildren (left ++ right)).withChildren
            left,
          ((node.emptied.withEntries (between ++ entry :: back)).withChildren
            (middle ++ [child])).withChildren (middle ++ child :: right)) :=
      moveChildren_parts left right [] (by simp [nested, children_withChildren]) (by omega)
        (by omega) (by simp [nested]) (by simp [nested, children_withChildren]; omega) (by simp)
        (by simp [nested, children_withChildren])
    have last := popped (node.withChildren left)
    simp only [withEntries_withChildren] at last
    simp [appendChild, nested, children_withChildren, followed, followedOn, last]

/-- Before the median, a node gives away what is behind its lower median and then takes the
entry. -/
theorem divideLeftOfMedian_parts (full : node.size = node.capacity)
    (matching : node.isLeaf = rightChild.isNone)
    (held : node.entries = front ++ (between ++ median :: back))
    (cut : front.length + between.length = (node.size - 1) / 2)
    (row : node.isLeaf = false → node.children = left ++ (middle ++ right) ∧
      left.length = front.length + 1 ∧ middle.length = between.length ∧
        right.length = back.length + 1) :
    node.divideLeftOfMedian front.length entry rightChild =
      .ok ((node.withEntries (front ++ entry :: between)).withChildren
          (left ++ (rightChild.toList ++ middle)), median,
        (node.emptied.withEntries back).withChildren right) := by
  have count : node.size = front.length + between.length + 1 + back.length := by
    simp [size, held]
    omega
  have moved : node.moveEntries node.emptied ((node.size - 1) / 2 + 1)
      (node.size - (node.size - 1) / 2 - 1) =
      .ok (node.withEntries (front ++ (between ++ [median])), node.emptied.withEntries back) :=
    moveEntries_parts (front ++ (between ++ [median])) back [] (by simp [held]) (by simp; omega)
      (by omega) (by simp; omega) (by simp) (by simp)
  have popped (node : Node κ ν) : (node.withEntries (front ++ (between ++ [median]))).popEntry =
      .ok (median, node.withEntries (front ++ between)) := by
    have parts := entries_withEntries node (front ++ (between ++ [median]))
    rw [← List.append_assoc] at parts
    simpa using popEntry_parts parts
  have room : front.length + between.length < node.capacity := by omega
  simp only [divideLeftOfMedian, moved, Checked.ok_bind]
  cases rightChild with
  | none =>
    have alone : node.isLeaf = true := matching
    simp [withChildren_of_leaf, alone, popped, insertEntry, room, insertIdx_behind]
  | some child =>
    have nested : node.isLeaf = false := matching
    obtain ⟨children, near, beside, far⟩ := row nested
    have followed : (node.withEntries (front ++ (between ++ [median]))).moveChildren
        (node.emptied.withEntries back) ((node.size - 1) / 2 + 1)
          (node.size - (node.size - 1) / 2) =
        .ok ((node.withEntries (front ++ (between ++ [median]))).withChildren (left ++ middle),
          (node.emptied.withEntries back).withChildren right) :=
      moveChildren_parts (left ++ middle) right [] (by simp [children]) (by simp; omega) (by omega)
        (by simp [nested]) (by simp; omega) (by simp) (by simp)
    have last := popped (node.withChildren (left ++ middle))
    simp only [withEntries_withChildren] at last
    simp [nested, followed, last, insertEntry, room, insertIdx_behind, children_withChildren,
      ← near]

/-- The parts of a widened run make halves. -/
theorem halves_of_parts (matching : node.isLeaf = rightChild.isNone)
    (joined : front ++ median :: back = node.entries.insertIdx slot entry)
    (cut : front.length = (SplitSide.ofSlot node.size slot).leftSize node.size)
    (row : ∀ child, rightChild = some child →
      left ++ right = node.children.insertIdx (slot + 1) child ∧ left.length = front.length + 1) :
    Halves node slot entry rightChild ((node.withEntries front).withChildren left) median
      ((node.emptied.withEntries back).withChildren right) := by
  constructor
  case entries => simpa using joined
  case cut => simpa using cut
  case capacities => simp
  case kinds => simp
  case children =>
    cases rightChild with
    | none =>
      have alone : node.isLeaf = true := matching
      simp [withChildren_of_leaf, alone, children_of_leaf alone, widenedChildren]
    | some child =>
      have nested : node.isLeaf = false := matching
      simpa [children_withChildren, nested, widenedChildren] using (row child rfl).1
  case row =>
    intro nested
    have nested : node.isLeaf = false := by simpa using nested
    obtain ⟨child, given⟩ : ∃ child, rightChild = some child := by
      rw [nested] at matching
      exact Option.isSome_iff_exists.mp (by simpa using matching.symm)
    simpa [children_withChildren, nested] using (row child given).2

/-- A full node that divides becomes two parts of its widened run, and of the widened run of its
children, around the entry that follows the left half. -/
theorem divide_halves (entry : κ × ν) (full : node.size = node.capacity) (several : 2 ≤ node.size)
    (inside : slot ≤ node.size) (matching : node.isLeaf = rightChild.isNone)
    (arity : node.isLeaf = false → node.children.length = node.size + 1) :
    ∃ left median right,
      node.divide slot entry rightChild (SplitSide.ofSlot node.size slot) =
        .ok (left, median, right) ∧
      Halves node slot entry rightChild left median right := by
  have length : node.entries.length = node.size := rfl
  have row (first second third : Nat) (whole : node.size + 1 = first + second + third) :
      ∃ left middle right, node.isLeaf = false → node.children = left ++ (middle ++ right) ∧
        left.length = first ∧ middle.length = second ∧ right.length = third := by
    by_cases nested : node.isLeaf = false
    · obtain ⟨left, middle, right, parts⟩ := exists_parts ((arity nested).trans whole)
      exact ⟨left, middle, right, fun _ => parts⟩
    · exact ⟨[], [], [], fun given => absurd given nested⟩
  have nested {child : Node κ ν} (given : rightChild = some child) : node.isLeaf = false := by
    rw [matching, given]
    rfl
  rcases SplitSide.ofSlot_cases node.size slot with ⟨early, side⟩ | ⟨atMedian, side⟩ | ⟨late, side⟩
  · have whole : node.entries.length =
        slot + ((node.size - 1) / 2 - slot) + (node.size - (node.size - 1) / 2) := by omega
    obtain ⟨front, between, rest, held, rfl, cut, longer⟩ := exists_parts whole
    cases rest with
    | nil =>
      simp only [List.length_nil] at longer
      omega
    | cons median back =>
      simp only [List.length_cons] at longer
      obtain ⟨left, middle, right, row⟩ := row (front.length + 1) between.length (back.length + 1)
        (by omega)
      have divided := @divideLeftOfMedian_parts κ ν node entry median rightChild front between back
        left middle right full matching held (by omega) row
      rw [side]
      refine ⟨_, _, _, divided, ?_⟩
      apply halves_of_parts matching
      case joined => simp [held, insertIdx_behind]
      case cut =>
        simp only [side, SplitSide.leftSize, List.length_append, List.length_cons]
        omega
      case row =>
        rintro child rfl
        obtain ⟨children, near, beside, far⟩ := row (nested rfl)
        rw [children, ← near, insertIdx_behind]
        simp
        omega
  · have whole : node.entries.length = slot + 0 + (node.size - slot) := by omega
    obtain ⟨front, none, back, held, rfl, empty, longer⟩ := exists_parts whole
    obtain rfl := List.length_eq_zero_iff.mp empty
    obtain ⟨left, none, right, row⟩ := row (front.length + 1) 0 back.length (by omega)
    have parted : node.isLeaf = false → node.children = left ++ right ∧
        left.length = front.length + 1 ∧ right.length = back.length := by
      intro nested
      obtain ⟨children, near, empty, far⟩ := row nested
      obtain rfl := List.length_eq_zero_iff.mp empty
      exact ⟨children, near, far⟩
    have divided := @divideAtMedian_parts κ ν node entry rightChild front back left right full
      matching held atMedian parted
    rw [side]
    refine ⟨_, _, _, divided, ?_⟩
    apply halves_of_parts matching
    case joined => simp [held, insertIdx_behind]
    case cut => rw [side, SplitSide.leftSize, atMedian]
    case row =>
      rintro child rfl
      obtain ⟨children, near, far⟩ := parted (nested rfl)
      rw [children, ← near, insertIdx_behind]
      simp [near]
  · have whole : node.entries.length =
        node.size / 2 + (slot - node.size / 2) + (node.size - slot) := by omega
    obtain ⟨front, rest, back, held, cut, longer, _⟩ := exists_parts whole
    cases rest with
    | nil =>
      simp only [List.length_nil] at longer
      omega
    | cons median between =>
      simp only [List.length_cons] at longer
      have place : slot = front.length + 1 + between.length := by omega
      obtain ⟨left, middle, right, row⟩ := row (front.length + 1) (between.length + 1) back.length
        (by omega)
      have divided := @divideRightOfMedian_parts κ ν node slot entry median rightChild front between
        back left middle right full matching held cut place row
      rw [side]
      refine ⟨_, _, _, divided, ?_⟩
      apply halves_of_parts matching
      case joined =>
        have widened := insertIdx_behind (front ++ median :: between) back entry
        have same : (front ++ median :: between).length = slot := by
          simp only [List.length_append, List.length_cons]
          omega
        rw [same] at widened
        simpa [held] using widened.symm
      case cut => rw [side, SplitSide.leftSize, cut]
      case row =>
        rintro child rfl
        obtain ⟨children, near, beside, far⟩ := row (nested rfl)
        have widened := insertIdx_behind (left ++ middle) right child
        have same : (left ++ middle).length = slot + 1 := by
          simp only [List.length_append]
          omega
        rw [same] at widened
        exact ⟨by simpa [children] using widened.symm, near⟩

/-- Around the median of a widened run there are as many entries as before, and the halves
differ by one entry at most. -/
theorem Halves.even {child : Option (Node κ ν)} {half other : Node κ ν} (inside : slot ≤ node.size)
    (halves : Halves node slot entry child half median other) :
    half.size + other.size = node.size ∧
      half.size ≤ other.size + 1 ∧ other.size ≤ half.size + 1 := by
  have longer : (node.entries.insertIdx slot entry).length = node.size + 1 :=
    List.length_insertIdx_of_le_length inside entry
  have sizes : half.size + other.size = node.size := by
    rw [← halves.entries, List.length_append, List.length_cons] at longer
    simp only [size] at longer ⊢
    omega
  have cut := halves.cut
  refine ⟨sizes, ?_⟩
  rw [← sizes] at cut
  generalize SplitSide.ofSlot (half.size + other.size) slot = side at cut
  cases side <;> simp only [SplitSide.leftSize] at cut <;> omega

end Division

/-- Two branches around a median list what one branch over all their parts lists. -/
theorem weave_divide (left right : List (Node κ ν)) (before after : List (κ × ν))
    (median : κ × ν) (arity : left.length = before.length + 1) (some : 0 < right.length) :
    weave (toLists (left ++ right)) (before ++ median :: after) =
      weave (toLists left) before ++ median :: weave (toLists right) after := by
  induction left generalizing before with
  | nil => simp at arity
  | cons child left inductionHypothesis =>
    cases before with
    | nil =>
      have single : left = [] := by simpa using arity
      subst single
      cases right with
      | nil => simp at some
      | cons next right => simp [toLists, weave]
    | cons entry before =>
      have shorter : left.length = before.length + 1 := by simpa using arity
      simp [toLists, weave, inductionHypothesis before shorter]

end Node

end CountedBTree
