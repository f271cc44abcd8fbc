import CountedBTree.Tree.Write
import CountedBTree.Proofs.Descent
import CountedBTree.Proofs.NodeInsertion

/-!
# Handing an insertion up a trail

An insertion at the end of a descent puts the entry into the gap where the descent
stands. What is handed up from a child is either the child with one entry more, which
the parent only has to count, or two halves and a median, which the parent takes as an
insertion of its own. In both cases the subtree lists its entries with the new one in
the gap, so nothing else moves, however far a split travels.

Below the root there is always room in the counts: a child counts less than its parent,
whose count is a machine word already.
-/

namespace CountedBTree

variable {κ ν : Type}

/-- The subtree took an entry: one node, or two halves around a median, in shape and
listing the given entries. -/
def Upshot.Leaves (capacities : Capacities) (height size : Nat) (contents : List (κ × ν)) :
    Upshot κ ν → Prop
  | .inserted node => (Insertion.kept node).Leaves capacities height size contents
  | .split left median right =>
      (Insertion.split left median right).Leaves capacities height size contents
  | .replaced _ _ => False
  | .deferred => False

theorem Upshot.leaves_ofInsertion (capacities : Capacities) (height size : Nat)
    (contents : List (κ × ν)) (insertion : Insertion κ ν) :
    (Upshot.ofInsertion insertion).Leaves capacities height size contents ↔
      insertion.Leaves capacities height size contents := by
  cases insertion <;> rfl

section Settling

variable [Ord κ] {capacities : Capacities} {height total number : Nat}
variable {entries : List (κ × ν)} {children : List (Node κ ν)} {child : Node κ ν}
variable {contents : List (κ × ν)}

/-- A node counts a child that took an entry, if its count has room. -/
theorem Frame.settle_counts (frame : Frame κ ν) (changed : Node κ ν) (value : ν)
    (small : frame.node.total + 1 < Fault.wordLimit) :
    frame.settle value false (.inserted changed) = pure (.inserted
      ((frame.node.withChild frame.number changed).withTotal (frame.node.total + 1))) := by
  have same : (frame.node.withChild frame.number changed).total = frame.node.total := by
    cases frame.node <;> rfl
  simp only [Frame.settle, Node.countInsertion, same, checkedSum, small, ↓reduceIte,
    Checked.ok_bind, Checked.pure_eq, Traced.lift_ok, pure_bind]

/-- A branch counts a child that took an entry, and lists it in place of the old one. -/
theorem Frame.settle_inserted (changed : Node κ ν) (value : ν)
    (shaped : Node.Shaped capacities (height + 1)
      (.branch capacities.branch total entries children))
    (found : children[number]? = some child)
    (leaves : (Upshot.inserted changed).Leaves capacities height child.size contents)
    (more : contents.length = child.toList.length + 1) (small : total + 1 < Fault.wordLimit) :
    ∃ upshot,
      Frame.settle ⟨.branch capacities.branch total entries children, number⟩ value false
        (.inserted changed) = ⟨[], .ok upshot⟩ ∧
      upshot.Leaves capacities (height + 1) entries.length
        (Node.inFront entries children number ++ contents ++
          Node.behind entries children number) := by
  obtain ⟨changedShaped, changedList, larger⟩ := leaves
  cases shaped with
  | branch fits separated arity counted shaped filled =>
    have childShaped := shaped child (List.mem_of_getElem? found)
    have changedFilled := childShaped.filled_of_size_le changedShaped
      (filled child (List.mem_of_getElem? found)) larger
    have listed := Node.weave_set arity found changed
    rw [changedList] at listed
    refine ⟨.inserted (.branch capacities.branch (total + 1) entries
      (children.set number changed)), ?_, ?_, listed, ?_⟩
    · exact Frame.settle_counts ⟨_, number⟩ changed value small
    · refine .branch fits separated (by simpa using arity) ?_
        (forall_mem_set shaped changedShaped) (forall_mem_set filled changedFilled)
      rw [counted, Node.weave_at arity found, listed]
      simp only [List.length_append]
      omega
    · simp [Node.size, Node.entries]

/-- A branch takes the median and the right half of a child that split, and lists both
halves around the median in place of the old child. -/
theorem Frame.settle_split [Std.TransOrd κ] (left right : Node κ ν) (median : κ × ν) (value : ν)
    (branchRoom : 2 ≤ capacities.branch)
    (shaped : Node.Shaped capacities (height + 1)
      (.branch capacities.branch total entries children))
    (found : children[number]? = some child)
    (leaves : (Upshot.split left median right).Leaves capacities height child.size contents)
    (more : contents.length = child.toList.length + 1) (small : total + 1 < Fault.wordLimit)
    (ascending : Ascending (Node.inFront entries children number ++ contents ++
      Node.behind entries children number)) :
    ∃ upshot,
      Frame.settle ⟨.branch capacities.branch total entries children, number⟩ value false
        (.split left median right) =
        ⟨(Node.branch capacities.branch total entries children).splitEvents number,
          .ok upshot⟩ ∧
      upshot.Leaves capacities (height + 1) entries.length
        (Node.inFront entries children number ++ contents ++
          Node.behind entries children number) := by
  obtain ⟨leftShaped, leftFilled, rightShaped, rightFilled, halves, _⟩ := leaves
  cases shaped with
  | branch fits separated arity counted shaped filled =>
    obtain ⟨inside, _⟩ := List.getElem?_eq_some_iff.mp found
    have listed := Node.weave_insert arity found left right median
    rw [halves] at listed
    have setArity : (children.set number left).length = entries.length + 1 := by
      simpa using arity
    have slot : number ≤ entries.length := by omega
    have reached : number + 1 ≤ (children.set number left).length := by omega
    have widerEntries := List.length_insertIdx_of_le_length slot median
    have widerChildren := List.length_insertIdx_of_le_length reached right
    have parts : Node.Parts capacities height (total + 1) (entries.insertIdx number median)
        ((children.set number left).insertIdx (number + 1) right) := by
      refine ⟨by omega, by omega, ?_,
        forall_mem_insertIdx (forall_mem_set shaped leftShaped) rightShaped,
        forall_mem_insertIdx (forall_mem_set filled leftFilled) rightFilled⟩
      rw [counted, Node.weave_at arity found, listed]
      simp only [List.length_append]
      omega
    rw [← listed] at ascending
    obtain ⟨insertion, run, leaves⟩ :=
      Node.insertAt_branch branchRoom fits slot setArity parts small ascending
    rw [listed] at leaves
    refine ⟨.ofInsertion insertion, ?_, (Upshot.leaves_ofInsertion _ _ _ _ _).mpr leaves⟩
    simp only [Frame.settle, Node.withChild, Node.withChildren, Node.children, run,
      Traced.answered_bind, Traced.events_pure, Traced.outcome_pure, List.append_nil]
    rfl

end Settling

namespace Trail

variable [Ord κ] [Std.TransOrd κ]

/-- An insertion at the end of a descent leaves the entries of the subtree with the new
one in the gap.

The induction follows the descent. The gap in a branch is that of the child taken, moved
up by what is in front of that child, so putting the entry into the child puts it there
in the branch; the entries of the child stay among those of the branch and therefore in
order. -/
theorem insert_leaves {capacities : Capacities} {height gap : Nat} {node : Node κ ν}
    {trail : Trail κ ν} (enters : Enters node trail gap)
    (shaped : Node.Shaped capacities height node) (leafRoom : 2 ≤ capacities.leaf)
    (branchRoom : 2 ≤ capacities.branch) (small : node.total + 1 < Fault.wordLimit)
    (key : κ) (value : ν) (ascending : Ascending (node.toList.insertIdx gap (key, value))) :
    ∃ events upshot, trail.insert key value false false = ⟨events, .ok upshot⟩ ∧
      upshot.Leaves capacities height node.size
        (node.toList.insertIdx gap (key, value)) := by
  induction enters generalizing height with
  | @leaf capacity total slot entries inside =>
    cases shaped with
    | leaf fits counted =>
      obtain ⟨insertion, run, leaves⟩ :=
        Node.insertAt_leaf leafRoom (.leaf fits counted) inside small ascending
      refine ⟨(Node.leaf capacities.leaf total entries).splitEvents slot,
        .ofInsertion insertion, ?_, (Upshot.leaves_ofInsertion _ _ _ _ _).mpr leaves⟩
      simp only [Trail.insert, Node.isLeaf, run, Bool.false_and, Bool.false_eq_true,
        ↓reduceIte, Traced.answered_bind, Traced.events_pure, Traced.outcome_pure,
        List.append_nil]
  | @branch capacity total number gap entries children child rest found below
      inductionHypothesis =>
    have whole := shaped
    cases shaped with
    | branch fits separated arity counted shaped filled =>
      have childShaped := shaped child (List.mem_of_getElem? found)
      have smaller := whole.child_total_lt found
      have gapInside := below.gap_le childShaped
      have more := List.length_insertIdx_of_le_length gapInside (key, value)
      simp only [Node.total] at small
      rw [Node.toList, Node.weave_at arity found, insertIdx_middle _ _ _ _ _ gapInside]
        at ascending ⊢
      obtain ⟨events, upshot, run, leaves⟩ :=
        inductionHypothesis childShaped (by omega) ascending.middle
      have handed : Trail.insert key value false false
          (⟨.branch capacities.branch total entries children, number⟩ :: rest) =
          (⟨events, .ok upshot⟩ : Traced Fault _) >>= Frame.settle
            ⟨.branch capacities.branch total entries children, number⟩ value false := by
        simp only [Trail.insert, Node.isLeaf, Bool.false_and, Bool.or_self, Bool.false_eq_true,
          ↓reduceIte, run]
      rw [handed, Traced.answered_bind]
      cases upshot with
      | inserted changed =>
        obtain ⟨settled, run, leaves⟩ :=
          Frame.settle_inserted changed value whole found leaves more small
        exact ⟨_, settled, by rw [run], leaves⟩
      | split left median right =>
        obtain ⟨settled, run, leaves⟩ := Frame.settle_split left right median value branchRoom
          whole found leaves more small ascending
        exact ⟨_, settled, by rw [run], leaves⟩
      | replaced changed old => exact leaves.elim
      | deferred => exact leaves.elim

end Trail

end CountedBTree
