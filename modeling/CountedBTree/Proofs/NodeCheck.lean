import CountedBTree.Node.Check
import CountedBTree.Proofs.KeyOrder
import CountedBTree.Proofs.Runs

/-!
# What the checks look at

Nothing is assumed about the node here: it may have been put together by any edits. The
shallow check passes exactly when the node is settled. The full check passes exactly when
every node of the subtree is settled, the leaves lie at the depth answered, and the children
of every branch are lined up with the separators around them.

A row of children is checked from the left, each child between the separator just passed and
the next one, so being lined up is defined along the row. It concerns the ends of the
children alone: their own first and last entries.
-/

namespace CountedBTree

variable {κ ν : Type}

namespace Node

/-- What holds of all leaves, and of a branch as soon as it holds of its children, holds of
all nodes. -/
theorem induct {holds : Node κ ν → Prop}
    (leaf : ∀ capacity total entries, holds (.leaf capacity total entries))
    (branch : ∀ capacity total entries children, (∀ child ∈ children, holds child) →
      holds (.branch capacity total entries children)) : ∀ node, holds node
  | .leaf capacity total entries => leaf capacity total entries
  | .branch capacity total entries children =>
      branch capacity total entries children (fun child _ => induct leaf branch child)

variable [Ord κ]

/-- The node keeps to its room, its own entries ascend, its children fit them, and it counts
what they count, in a machine word. -/
structure Settled (node : Node κ ν) : Prop where
  fits : node.size ≤ node.capacity
  ascending : Ascending node.entries
  arity : node.childrenFit = true
  counted : node.total = node.countedTotal
  small : node.total < Fault.wordLimit

/-- Children in a row, between a separator already passed and those still ahead. None is
empty, and the ends of each do not lie beyond the separators beside it. -/
def Lined (passed : Option κ) (ahead : List κ) : List (Node κ ν) → Prop
  | [] => True
  | child :: rest =>
      child.isEmpty = false ∧ child.notBelow passed = true ∧
        child.notAbove ahead.head? = true ∧ Lined ahead.head? ahead.tail rest

/-- The whole subtree is settled and has its leaves at the given depth, and the children of
every branch are lined up with its separators. -/
inductive Inspected : Nat → Node κ ν → Prop where
  | leaf {capacity total : Nat} {entries : List (κ × ν)}
      (settled : Settled (.leaf capacity total entries)) :
      Inspected 0 (.leaf capacity total entries)
  | branch {depth capacity total : Nat} {entries : List (κ × ν)} {children : List (Node κ ν)}
      (settled : Settled (.branch capacity total entries children))
      (separated : 0 < entries.length)
      (lined : Lined none (entries.map Prod.fst) children)
      (inspected : ∀ child ∈ children, Inspected depth child) :
      Inspected (depth + 1) (.branch capacity total entries children)

/-- The children of a settled branch fit its entries. -/
theorem Settled.children_length {capacity total : Nat} {entries : List (κ × ν)}
    {children : List (Node κ ν)} (settled : Settled (.branch capacity total entries children)) :
    children.length = entries.length + 1 := by
  simpa [childrenFit] using settled.arity

/-- A row of children passes when the first one does, at the depth asked for, and the others
do at the depth of the first. -/
theorem checkChildren_cons {passed : Option κ} {ahead : List κ} {depth result : Option Nat}
    {child : Node κ ν} {rest : List (Node κ ν)} :
    checkChildren passed ahead depth (child :: rest) = .ok result ↔
      child.isEmpty = false ∧ child.notBelow passed = true ∧
        child.notAbove ahead.head? = true ∧ ∃ level, child.check = .ok level ∧
          depth.getD level = level ∧
          checkChildren ahead.head? ahead.tail (some level) rest = .ok result := by
  simp only [checkChildren, Checked.throw_eq, Checked.error_bind, Checked.ite_eq_ok,
    Checked.ite_error_eq_ok, Checked.bind_eq_ok, Bool.not_eq_true]

/-- A row of children passes exactly when it is lined up and every child in it has the one
depth that is answered. -/
theorem checkChildren_iff {passed : Option κ} {ahead : List κ} {depth result : Option Nat}
    {children : List (Node κ ν)} (some : children ≠ []) :
    checkChildren passed ahead depth children = .ok result ↔
      Lined passed ahead children ∧ ∃ level, result = .some level ∧
        depth.getD level = level ∧ ∀ child ∈ children, child.check = .ok level := by
  induction children generalizing passed ahead depth with
  | nil => contradiction
  | cons child rest inductionHypothesis =>
    rw [checkChildren_cons]
    cases rest with
    | nil =>
      constructor
      · rintro ⟨occupied, notBelow, notAbove, level, checked, same, answered⟩
        refine ⟨⟨occupied, notBelow, notAbove, trivial⟩, level, ?_, same, by simpa using checked⟩
        simpa [checkChildren] using answered.symm
      · rintro ⟨⟨occupied, notBelow, notAbove, _⟩, level, rfl, same, checked⟩
        exact ⟨occupied, notBelow, notAbove, level, checked child List.mem_cons_self, same, rfl⟩
    | cons next rest =>
      constructor
      · rintro ⟨occupied, notBelow, notAbove, level, checked, same, answered⟩
        obtain ⟨lined, deeper, rfl, agreed, others⟩ :=
          (inductionHypothesis (List.cons_ne_nil _ _)).mp answered
        obtain rfl : level = deeper := agreed
        refine ⟨⟨occupied, notBelow, notAbove, lined⟩, level, rfl, same, ?_⟩
        exact List.forall_mem_cons.mpr ⟨checked, others⟩
      · rintro ⟨⟨occupied, notBelow, notAbove, lined⟩, level, rfl, same, checked⟩
        obtain ⟨first, others⟩ := List.forall_mem_cons.mp checked
        refine ⟨occupied, notBelow, notAbove, level, first, same, ?_⟩
        exact (inductionHypothesis (List.cons_ne_nil _ _)).mpr ⟨lined, level, rfl, rfl, others⟩

variable [Std.TransOrd κ]

/-- The shallow check passes exactly when the node is settled. -/
theorem checkShallow_iff (node : Node κ ν) : node.checkShallow = .ok () ↔ node.Settled := by
  simp only [checkShallow, Checked.throw_eq, Checked.pure_eq, Checked.error_bind,
    Checked.ite_eq_ok, Checked.bind_eq_ok, Checked.sum_eq_ok, ascending_iff]
  constructor
  · rintro ⟨fits, ascending, arity, counted, ⟨small, rfl⟩, same, _⟩
    exact ⟨fits, ascending, arity, same, same ▸ small⟩
  · rintro ⟨fits, ascending, arity, counted, small⟩
    exact ⟨fits, ascending, arity, _, ⟨counted ▸ small, rfl⟩, counted, trivial⟩

/-- A node within its room whose own entries do not ascend fails the shallow check for
that, whatever else is wrong with it. -/
theorem checkShallow_unordered {node : Node κ ν} (fits : node.size ≤ node.capacity)
    (unordered : ¬ Ascending node.entries) : node.checkShallow = .error .unordered := by
  have descends : ascending node.entries = false := by
    simpa [← ascending_iff] using unordered
  simp [checkShallow, fits, descends]

/-- Whether a node with its capacity, arity and counts right passes its check depends on the
order of its own entries. -/
theorem checkShallow_cases {node : Node κ ν} (fits : node.size ≤ node.capacity)
    (arity : node.childrenFit = true) (counted : node.total = node.countedTotal)
    (small : node.total < Fault.wordLimit) :
    (Ascending node.entries → node.checkShallow = .ok ()) ∧
      (¬ Ascending node.entries → node.checkShallow = .error .unordered) := by
  constructor
  · intro ascending
    exact (checkShallow_iff node).mpr ⟨fits, ascending, arity, counted, small⟩
  · intro unordered
    exact checkShallow_unordered fits unordered

/-- The full check passes with a depth exactly when the subtree is inspected at that depth. -/
theorem check_iff (node : Node κ ν) (depth : Nat) :
    node.check = .ok depth ↔ Inspected depth node := by
  induction node using induct generalizing depth with
  | leaf capacity total entries =>
    constructor
    · intro checked
      rw [check] at checked
      obtain ⟨_, shallow, same⟩ := Checked.bind_eq_ok.mp checked
      obtain rfl : 0 = depth := Except.ok.inj same
      exact .leaf ((checkShallow_iff _).mp shallow)
    · rintro ⟨settled⟩
      simp [check, (checkShallow_iff _).mpr settled]
  | branch capacity total entries children inductionHypothesis =>
    constructor
    · intro checked
      simp only [check, Checked.throw_eq, Checked.pure_eq, Checked.error_bind, Checked.bind_eq_ok,
        Checked.ite_error_eq_ok, List.isEmpty_iff] at checked
      obtain ⟨_, shallow, separated, found, row, same⟩ := checked
      have settled := (checkShallow_iff _).mp shallow
      have some : children ≠ [] := List.ne_nil_of_length_eq_add_one settled.children_length
      obtain ⟨lined, level, rfl, _, checks⟩ := (checkChildren_iff some).mp row
      obtain rfl : level + 1 = depth := Except.ok.inj same
      refine .branch settled (List.length_pos_iff.mpr separated) lined ?_
      intro child member
      exact (inductionHypothesis child member level).mp (checks child member)
    · intro inspected
      cases inspected with
      | @branch level _ _ _ _ settled separated lined inspected =>
        have some : children ≠ [] := List.ne_nil_of_length_eq_add_one settled.children_length
        have checks : ∀ child ∈ children, child.check = .ok level :=
          fun child member => (inductionHypothesis child member level).mpr (inspected child member)
        have row : checkChildren none (entries.map Prod.fst) none children = .ok (.some level) :=
          (checkChildren_iff some).mpr ⟨lined, level, rfl, rfl, checks⟩
        have occupied : entries.isEmpty = false := by
          simpa [List.length_pos_iff] using separated
        simp [check, (checkShallow_iff _).mpr settled, occupied, row]

end Node

end CountedBTree
