import CountedBTree.Tree.Basic
import CountedBTree.Proofs.NodeCheck

/-!
# The shape of a subtree

A subtree of a given height has the capacity of leaves in its leaves and that of
branches in its branches, stores at every node how many entries really lie below it,
and has its leaves at one depth, which is the height. Every node but the topmost is
filled: it holds at least one entry, and at least half of what it has room for.

The shape says nothing about keys. That the entries ascend is a property of the list
`Node.toList` alone, which the order of entries and children inside the nodes follows
from. The list of a branch therefore has to be taken apart at a child: the entries in
front of it, its own, and the entries behind it.
-/

namespace CountedBTree

variable {α κ ν : Type}

/-- Blocks and separators can be cut at any block. The cut leaves an empty block on
either side, so that the separators there keep their neighbours. -/
theorem weave_append (blocks rest : List (List α)) (middle : List α)
    (separators more : List α) (paired : blocks.length = separators.length) :
    weave (blocks ++ middle :: rest) (separators ++ more) =
      weave (blocks ++ [[]]) separators ++ middle ++ weave ([] :: rest) more := by
  induction blocks generalizing separators with
  | nil =>
    have none : separators = [] := List.length_eq_zero_iff.mp paired.symm
    subst none
    cases more <;> simp [weave]
  | cons block blocks inductionHypothesis =>
    cases separators with
    | nil => simp at paired
    | cons separator separators =>
      have shorter : blocks.length = separators.length := by simpa using paired
      simp [weave, inductionHypothesis separators shorter]

/-- Every separator and every element of a block is counted once. -/
theorem length_weave (blocks : List (List α)) (separators : List α)
    (paired : blocks.length = separators.length + 1) :
    (weave blocks separators).length = (blocks.map List.length).sum + separators.length := by
  induction blocks generalizing separators with
  | nil => simp at paired
  | cons block blocks inductionHypothesis =>
    cases separators with
    | nil =>
      have none : blocks = [] := by simpa using paired
      simp [weave, none]
    | cons separator separators =>
      have shorter : blocks.length = separators.length + 1 := by simpa using paired
      simp only [weave, List.length_append, List.length_cons, List.map_cons, List.sum_cons,
        inductionHypothesis separators shorter]
      omega

/-- The separators keep their order between the blocks. -/
theorem separators_sublist_weave (blocks : List (List α)) (separators : List α)
    (enough : separators.length ≤ blocks.length) :
    separators.Sublist (weave blocks separators) := by
  induction blocks generalizing separators with
  | nil =>
    have none : separators = [] := by simpa using enough
    simp [none]
  | cons block blocks inductionHypothesis =>
    cases separators with
    | nil => exact List.nil_sublist _
    | cons separator separators =>
      have shorter : separators.length ≤ blocks.length := by simpa using enough
      exact ((inductionHypothesis separators shorter).cons_cons separator).trans
        (List.sublist_append_right _ _)

/-- What holds of all elements and of a new one holds of all after the new one replaced
another. -/
theorem forall_mem_set {holds : α → Prop} {elements : List α} {element : α} {place : Nat}
    (every : ∀ other ∈ elements, holds other) (new : holds element) :
    ∀ other ∈ elements.set place element, holds other := by
  intro other member
  rcases List.mem_or_eq_of_mem_set member with member | rfl
  · exact every other member
  · exact new

/-- What holds of all elements and of a new one holds of all with the new one among them. -/
theorem forall_mem_insertIdx {holds : α → Prop} {elements : List α} {element : α} {place : Nat}
    (every : ∀ other ∈ elements, holds other) (new : holds element) :
    ∀ other ∈ elements.insertIdx place element, holds other := by
  intro other member
  rcases List.eq_or_mem_of_mem_insertIdx member with rfl | member
  · exact new
  · exact every other member

namespace Node

/-- The lists of several subtrees are the lists of each. -/
theorem toLists_eq_map (children : List (Node κ ν)) : toLists children = children.map toList := by
  induction children with
  | nil => rfl
  | cons child rest inductionHypothesis => simp [toLists, inductionHypothesis]

/-- The entries of a branch in front of a child. -/
def inFront (entries : List (κ × ν)) (children : List (Node κ ν)) (number : Nat) :
    List (κ × ν) :=
  weave (toLists (children.take number) ++ [[]]) (entries.take number)

/-- The entries of a branch behind a child. -/
def behind (entries : List (κ × ν)) (children : List (Node κ ν)) (number : Nat) :
    List (κ × ν) :=
  weave ([] :: toLists (children.drop (number + 1))) (entries.drop number)

section Hole

variable {entries : List (κ × ν)} {children : List (Node κ ν)} {number : Nat}
variable {child : Node κ ν}

/-- A child that is there stands among the children, with the others around it. -/
theorem children_around (found : children[number]? = some child) :
    children = children.take number ++ child :: children.drop (number + 1) := by
  obtain ⟨inside, same⟩ := List.getElem?_eq_some_iff.mp found
  rw [← same, ← List.drop_eq_getElem_cons inside, List.take_append_drop]

/-- A branch lists what is in front of a child, the child, and what is behind it. -/
theorem weave_at (arity : children.length = entries.length + 1)
    (found : children[number]? = some child) :
    weave (toLists children) entries =
      inFront entries children number ++ child.toList ++ behind entries children number := by
  obtain ⟨inside, _⟩ := List.getElem?_eq_some_iff.mp found
  have paired : (toLists (children.take number)).length = (entries.take number).length := by
    simp only [toLists_eq_map, List.length_map, List.length_take]
    omega
  calc weave (toLists children) entries
      = weave (toLists (children.take number) ++ child.toList ::
          toLists (children.drop (number + 1))) (entries.take number ++ entries.drop number) := by
        rw [List.take_append_drop]
        conv => lhs; rw [children_around found]
        simp [toLists_eq_map]
    _ = _ := weave_append _ _ _ _ _ paired

/-- Nothing is in front of the first child. -/
@[simp] theorem inFront_zero : inFront entries children 0 = [] := by
  simp [inFront, toLists, weave]

/-- The next child has this one and the separator between them in front of it, too. -/
theorem inFront_succ (arity : children.length = entries.length + 1)
    (found : children[number]? = some child) (inside : number < entries.length) :
    inFront entries children (number + 1) =
      inFront entries children number ++ child.toList ++ [entries[number]] := by
  obtain ⟨present, same⟩ := List.getElem?_eq_some_iff.mp found
  have paired : (toLists (children.take number)).length = (entries.take number).length := by
    simp only [toLists_eq_map, List.length_map, List.length_take]
    omega
  have prolonged : toLists (children.take (number + 1)) ++ [[]] =
      toLists (children.take number) ++ child.toList :: [[]] := by
    rw [List.take_succ_eq_append_getElem present, same]
    simp [toLists_eq_map]
  rw [inFront, prolonged, List.take_succ_eq_append_getElem inside,
    weave_append _ _ _ _ _ paired]
  simp [inFront, weave]

/-- Behind a child come the separator after it, the next child, and what follows. -/
theorem behind_cons {next : Node κ ν}
    (found : children[number + 1]? = some next) (inside : number < entries.length) :
    behind entries children number =
      entries[number] :: (next.toList ++ behind entries children (number + 1)) := by
  obtain ⟨present, same⟩ := List.getElem?_eq_some_iff.mp found
  rw [behind, List.drop_eq_getElem_cons present, List.drop_eq_getElem_cons inside, same, toLists,
    weave, List.nil_append]
  congr 1
  exact weave_append [] _ _ [] _ rfl

/-- Nothing is behind the last child. -/
theorem behind_last (arity : children.length = entries.length + 1) :
    behind entries children entries.length = [] := by
  simp [behind, ← arity, toLists, weave]

/-- Another child in the same place has the same entries around it. -/
@[simp] theorem inFront_set (changed : Node κ ν) :
    inFront entries (children.set number changed) number = inFront entries children number := by
  simp [inFront, List.take_set_of_le]

@[simp] theorem behind_set (changed : Node κ ν) :
    behind entries (children.set number changed) number = behind entries children number := by
  simp [behind, List.drop_set_of_lt]

/-- A child that split lists its two halves with the median between them, where it
stood. -/
theorem weave_insert (arity : children.length = entries.length + 1)
    (found : children[number]? = some child) (left right : Node κ ν) (median : κ × ν) :
    weave (toLists ((children.set number left).insertIdx (number + 1) right))
        (entries.insertIdx number median) =
      inFront entries children number ++ (left.toList ++ median :: right.toList) ++
        behind entries children number := by
  obtain ⟨inside, _⟩ := List.getElem?_eq_some_iff.mp found
  have paired : (toLists (children.take number)).length = (entries.take number).length := by
    simp only [toLists_eq_map, List.length_map, List.length_take]
    omega
  have widened : (children.set number left).insertIdx (number + 1) right =
      children.take number ++ left :: right :: children.drop (number + 1) := by
    have within : number < (children.set number left).length := by simpa using inside
    rw [insertIdx_eq_take_drop _ _ _ within, List.drop_set_of_lt (by omega),
      List.take_succ_eq_append_getElem within, List.take_set_of_le (by omega),
      List.getElem_set_self]
    simp
  rw [widened, insertIdx_eq_take_drop _ _ _ (by omega)]
  calc weave (toLists (children.take number ++ left :: right :: children.drop (number + 1)))
        (entries.take number ++ median :: entries.drop number)
      = weave (toLists (children.take number) ++ left.toList :: right.toList ::
          toLists (children.drop (number + 1)))
          (entries.take number ++ median :: entries.drop number) := by
        simp [toLists_eq_map]
    _ = inFront entries children number ++ left.toList ++
          weave ([] :: right.toList :: toLists (children.drop (number + 1)))
            (median :: entries.drop number) := weave_append _ _ _ _ _ paired
    _ = inFront entries children number ++ left.toList ++
          (median :: (right.toList ++ behind entries children number)) := by
        rw [weave, List.nil_append]
        congr 2
        exact weave_append [] _ _ [] _ rfl
    _ = _ := by simp

/-- Replacing a child changes what a branch lists at that child only. -/
theorem weave_set (arity : children.length = entries.length + 1)
    (found : children[number]? = some child) (changed : Node κ ν) :
    weave (toLists (children.set number changed)) entries =
      inFront entries children number ++ changed.toList ++ behind entries children number := by
  obtain ⟨inside, _⟩ := List.getElem?_eq_some_iff.mp found
  have arity' : (children.set number changed).length = entries.length + 1 := by
    simpa using arity
  have found' : (children.set number changed)[number]? = some changed := by simp [inside]
  rw [weave_at arity' found', inFront_set, behind_set]

/-- Replacing a separator changes what a branch lists at that separator only. -/
theorem weave_set_separator (arity : children.length = entries.length + 1)
    (found : children[number]? = some child) (inside : number < entries.length)
    (entry : κ × ν) :
    weave (toLists children) (entries.set number entry) =
      (weave (toLists children) entries).set
        ((inFront entries children number).length + child.toList.length) entry := by
  have arity' : children.length = (entries.set number entry).length + 1 := by simpa using arity
  have inside' : number < (entries.set number entry).length := by simpa using inside
  have follows : children[number + 1]? = some children[number + 1] :=
    List.getElem?_eq_getElem (by omega)
  have front : inFront (entries.set number entry) children number =
      inFront entries children number := by simp [inFront, List.take_set_of_le]
  have back : behind (entries.set number entry) children (number + 1) =
      behind entries children (number + 1) := by simp [behind, List.drop_set_of_lt]
  rw [weave_at arity' found, weave_at arity found, behind_cons follows inside',
    behind_cons follows inside, front, back, List.getElem_set_self, ← List.length_append,
    List.set_append_right _ _ (Nat.le_refl _), Nat.sub_self, List.set_cons_zero]

end Hole

/-- The node is not empty, and at least half full. -/
def Filled (node : Node κ ν) : Prop := 0 < node.size ∧ node.capacity / 2 ≤ node.size

/-- The node roots a subtree of the given height that is in shape: capacities, room,
arity, stored counts and depth of leaves are right at every node below, and all of
them but the node itself are filled. -/
inductive Shaped (capacities : Capacities) : Nat → Node κ ν → Prop where
  | leaf {total : Nat} {entries : List (κ × ν)}
      (fits : entries.length ≤ capacities.leaf) (counted : total = entries.length) :
      Shaped capacities 0 (.leaf capacities.leaf total entries)
  | branch {height total : Nat} {entries : List (κ × ν)} {children : List (Node κ ν)}
      (fits : entries.length ≤ capacities.branch) (separated : 0 < entries.length)
      (arity : children.length = entries.length + 1)
      (counted : total = (weave (toLists children) entries).length)
      (shaped : ∀ child ∈ children, Shaped capacities height child)
      (filled : ∀ child ∈ children, child.Filled) :
      Shaped capacities (height + 1) (.branch capacities.branch total entries children)

namespace Shaped

variable {capacities : Capacities} {height : Nat} {node : Node κ ν}

/-- The stored count is the number of entries in the subtree. -/
theorem total_eq (shaped : Shaped capacities height node) :
    node.total = node.toList.length := by
  cases shaped with
  | leaf fits counted => simpa [total, toList] using counted
  | branch fits separated arity counted => simpa [total, toList] using counted

/-- A node holds no more than it has room for. -/
theorem size_le (shaped : Shaped capacities height node) : node.size ≤ node.capacity := by
  cases shaped with
  | leaf fits => exact fits
  | branch fits => exact fits

/-- The entries of the node itself are among those of the subtree, in the same order. -/
theorem entries_sublist (shaped : Shaped capacities height node) :
    node.entries.Sublist node.toList := by
  cases shaped with
  | leaf => simp [entries, toList]
  | branch fits separated arity =>
    refine separators_sublist_weave _ _ ?_
    simp only [Node.entries, toLists_eq_map, List.length_map]
    omega

end Shaped

/-- The stored counts of subtrees that count what they list add up to the entries they
list. -/
theorem totalOfAll_eq (children : List (Node κ ν))
    (counted : ∀ child ∈ children, child.total = child.toList.length) :
    totalOfAll children = ((toLists children).map List.length).sum := by
  induction children with
  | nil => rfl
  | cons child rest inductionHypothesis =>
    have first : child.total = child.toList.length := counted child List.mem_cons_self
    have others : totalOfAll rest = ((toLists rest).map List.length).sum :=
      inductionHypothesis (fun other member => counted other (List.mem_cons_of_mem _ member))
    simp [totalOfAll, toLists, first, others]

section Counts

variable {capacities : Capacities} {height : Nat} {entries : List (κ × ν)}
variable {children : List (Node κ ν)}

/-- A branch lists its own entries and those its children count. -/
theorem length_weave_toLists (arity : children.length = entries.length + 1)
    (counted : ∀ child ∈ children, child.total = child.toList.length) :
    (weave (toLists children) entries).length = entries.length + totalOfAll children := by
  have paired : (toLists children).length = entries.length + 1 := by
    simpa [toLists_eq_map] using arity
  rw [length_weave _ _ paired, totalOfAll_eq children counted, Nat.add_comm]

/-- In front of a child are the separators before it and what the children before it
count. -/
theorem length_inFront (arity : children.length = entries.length + 1)
    (shaped : ∀ child ∈ children, Shaped capacities height child) (number : Nat)
    (inside : number ≤ entries.length) :
    (inFront entries children number).length =
      number + totalOfAll (children.take number) := by
  have paired : (toLists (children.take number) ++ [[]]).length =
      (entries.take number).length + 1 := by
    simp only [toLists_eq_map, List.length_append, List.length_map, List.length_take,
      List.length_cons, List.length_nil]
    omega
  have earlier : ∀ child ∈ children.take number, child.total = child.toList.length :=
    fun child member => (shaped child (List.mem_of_mem_take member)).total_eq
  rw [inFront, length_weave _ _ paired, totalOfAll_eq _ earlier, List.length_take,
    Nat.min_eq_left inside, List.map_append, List.sum_append]
  simp only [List.map_cons, List.map_nil, List.sum_cons, List.sum_nil, List.length_nil]
  omega

end Counts

/-- Nodes in shape at one height have the same capacity, so one that holds no less than
a filled one is filled. -/
theorem Shaped.filled_of_size_le {capacities : Capacities} {height : Nat}
    {old new : Node κ ν} (oldShaped : Shaped capacities height old)
    (newShaped : Shaped capacities height new) (filled : old.Filled)
    (larger : old.size ≤ new.size) : new.Filled := by
  have same : new.capacity = old.capacity := by
    cases oldShaped <;> cases newShaped <;> rfl
  obtain ⟨some, half⟩ := filled
  exact ⟨by omega, by omega⟩

/-- Everything a child counts, and the entries of its parent, count for the parent. -/
theorem Shaped.child_total_lt {capacities : Capacities} {height capacity total number : Nat}
    {entries : List (κ × ν)} {children : List (Node κ ν)} {child : Node κ ν}
    (shaped : Shaped capacities (height + 1) (.branch capacity total entries children))
    (found : children[number]? = some child) : child.total < total := by
  cases shaped with
  | branch fits separated arity counted shaped filled =>
    have childShaped := shaped child (List.mem_of_getElem? found)
    obtain ⟨inside, _⟩ := List.getElem?_eq_some_iff.mp found
    have listed := counted.trans (congrArg List.length (weave_at arity found))
    have front := length_inFront arity shaped number (by omega)
    by_cases first : number = 0
    · obtain ⟨next, follows⟩ : ∃ next, children[number + 1]? = some next :=
        ⟨children[number + 1], List.getElem?_eq_getElem (by omega)⟩
      have separator := congrArg List.length
        (behind_cons follows (by omega : number < entries.length))
      simp only [List.length_append, List.length_cons, ← childShaped.total_eq]
        at listed separator
      omega
    · simp only [List.length_append, ← childShaped.total_eq] at listed
      omega

/-- What a node counts for the shallow check is what it stores. -/
theorem Shaped.countedTotal_eq {capacities : Capacities} {height : Nat} {node : Node κ ν}
    (shaped : Shaped capacities height node) : node.countedTotal = node.total := by
  cases shaped with
  | leaf fits counted => simp [countedTotal, size, entries, children, totalOfAll, total, counted]
  | branch fits separated arity counted shaped filled =>
    simp [countedTotal, size, entries, children, total, counted,
      length_weave_toLists arity (fun child member => (shaped child member).total_eq)]

/-- A node in shape is settled when its entries ascend and its count is a machine word. -/
theorem Shaped.settled [Ord κ] {capacities : Capacities} {height : Nat} {node : Node κ ν}
    (shaped : Shaped capacities height node) (ascending : Ascending node.toList)
    (small : node.total < Fault.wordLimit) : node.Settled := by
  constructor
  case fits => exact shaped.size_le
  case ascending => exact ascending.of_sublist shaped.entries_sublist
  case arity =>
    cases shaped with
    | leaf => rfl
    | branch fits separated arity => simpa [childrenFit] using arity
  case counted => exact shaped.countedTotal_eq.symm
  case small => exact small

/-- A node in shape passes the shallow check when its entries ascend and its count is a
machine word. -/
theorem Shaped.checkShallow_ok [Ord κ] [Std.TransOrd κ] {capacities : Capacities}
    {height : Nat} {node : Node κ ν} (shaped : Shaped capacities height node)
    (ascending : Ascending node.toList) (small : node.total < Fault.wordLimit) :
    node.checkShallow = .ok () :=
  (checkShallow_iff node).mpr (shaped.settled ascending small)

end Node

end CountedBTree
