import CountedBTree.Tree.Lookup
import CountedBTree.Proofs.Runs
import CountedBTree.Proofs.Shape

/-!
# Descents to a gap

A descent that ends at a slot of a leaf stands in a gap of the subtree: some entries
are in front of it and the others behind. Its length from the front adds up along the
way down, from what is in front of the child taken at every branch.

A question that cuts the entries of the whole subtree cuts those of every node, and a
descent that asks it at each node ends in the gap between yes and no. What is in front
of a child taken ends with a separator that answered yes, and what is behind begins
with one that answered no, so both sides follow from the separators alone.
-/

namespace CountedBTree

variable {κ ν : Type}

/-- The trail leads down from the node to a gap of a leaf, with `gap` entries of the
subtree in front of it. -/
inductive Trail.Enters : Node κ ν → Trail κ ν → Nat → Prop where
  | leaf {capacity total slot : Nat} {entries : List (κ × ν)}
      (inside : slot ≤ entries.length) :
      Trail.Enters (.leaf capacity total entries) [⟨.leaf capacity total entries, slot⟩] slot
  | branch {capacity total number gap : Nat} {entries : List (κ × ν)}
      {children : List (Node κ ν)} {child : Node κ ν} {rest : Trail κ ν}
      (found : children[number]? = some child) (below : Trail.Enters child rest gap) :
      Trail.Enters (.branch capacity total entries children)
        (⟨.branch capacity total entries children, number⟩ :: rest)
        ((Node.inFront entries children number).length + gap)

namespace Node

/-- A descent takes the child with the number chosen, if there is one. -/
theorem descendInto_eq (choose : Node κ ν → Nat) (number : Nat) (children : List (Node κ ν))
    (child : Node κ ν) (found : children[number]? = some child) :
    descendInto choose number children = child.descend choose := by
  induction children generalizing number with
  | nil => simp at found
  | cons first rest inductionHypothesis =>
    cases number with
    | zero =>
      have same : first = child := by simpa using found
      simp [descendInto, same]
    | succ number =>
      have later : rest[number]? = some child := by simpa using found
      simpa [descendInto] using inductionHypothesis number later

section Cut

variable {capacities : Capacities} {height number : Nat} {entries : List (κ × ν)}
variable {children : List (Node κ ν)} {child : Node κ ν} {holds : κ × ν → Bool}

/-- If the separator before a child answers yes, so does everything in front of it. -/
theorem inFront_yes (arity : children.length = entries.length + 1)
    (found : children[number]? = some child)
    (cut : Cut holds (weave (toLists children) entries))
    (yes : ∀ separator ∈ entries.take number, holds separator = true) :
    ∀ entry ∈ inFront entries children number, holds entry = true := by
  obtain ⟨inside, _⟩ := List.getElem?_eq_some_iff.mp found
  cases number with
  | zero => simp
  | succ before =>
    have separated : before < entries.length := by omega
    obtain ⟨previous, taken⟩ : ∃ previous, children[before]? = some previous :=
      ⟨children[before], List.getElem?_eq_getElem (by omega)⟩
    have last : holds entries[before] = true := by
      apply yes
      rw [List.take_succ_eq_append_getElem separated]
      exact List.mem_append_right _ (List.mem_singleton_self _)
    rw [weave_at arity found, inFront_succ arity taken separated] at cut
    have around : Cut holds ((inFront entries children before ++ previous.toList) ++
        entries[before] :: (child.toList ++ behind entries children (before + 1))) := by
      simpa using cut
    intro entry member
    rw [inFront_succ arity taken separated, List.mem_append, List.mem_singleton] at member
    rcases member with member | rfl
    · exact around.before_yes last entry member
    · exact last

/-- If the separator after a child answers no, so does everything behind it. -/
theorem behind_no (arity : children.length = entries.length + 1)
    (found : children[number]? = some child)
    (cut : Cut holds (weave (toLists children) entries))
    (no : ∀ separator ∈ entries.drop number, holds separator = false) :
    ∀ entry ∈ behind entries children number, holds entry = false := by
  obtain ⟨inside, _⟩ := List.getElem?_eq_some_iff.mp found
  by_cases separated : number < entries.length
  · obtain ⟨next, follows⟩ : ∃ next, children[number + 1]? = some next :=
      ⟨children[number + 1], List.getElem?_eq_getElem (by omega)⟩
    have first : holds entries[number] = false := by
      apply no
      rw [List.drop_eq_getElem_cons separated]
      exact List.mem_cons_self
    rw [weave_at arity found, behind_cons follows separated] at cut
    intro entry member
    rw [behind_cons follows separated] at member
    rcases List.mem_cons.mp member with rfl | member
    · exact first
    · exact cut.after_no first entry member
  · have last : number = entries.length := by omega
    simp [last, behind_last arity]

end Cut

/-- A descent that asks a cutting question at every node ends in the gap behind the yes
answers. The induction follows the shape; at a branch the yes answers are all that is
in front of the child taken, and those inside it. -/
theorem descend_enters {capacities : Capacities} {height : Nat} {node : Node κ ν}
    (shaped : Shaped capacities height node) (holds : κ × ν → Bool)
    (choose : Node κ ν → Nat)
    (asks : ∀ visited, choose visited = partitionPoint holds visited.entries)
    (cut : Cut holds node.toList) :
    ∃ trail, node.descend choose = .ok trail ∧
      Trail.Enters node trail (node.toList.countP holds) := by
  induction shaped with
  | @leaf total entries fits counted =>
    have slot : choose (.leaf capacities.leaf total entries) = entries.countP holds :=
      (asks _).trans (partitionPoint_eq_countP holds entries cut)
    refine ⟨[⟨.leaf capacities.leaf total entries, entries.countP holds⟩], ?_, ?_⟩
    · simp only [descend, slot]
    · exact .leaf List.countP_le_length
  | @branch height total entries children fits separated arity counted shaped filled
      inductionHypothesis =>
    have whole : Shaped capacities (height + 1)
        (.branch capacities.branch total entries children) :=
      .branch fits separated arity counted shaped filled
    have entriesCut : Cut holds entries := cut.of_sublist whole.entries_sublist
    have number : choose (.branch capacities.branch total entries children) =
        entries.countP holds :=
      (asks _).trans (partitionPoint_eq_countP holds entries entriesCut)
    have bound : entries.countP holds ≤ entries.length := List.countP_le_length
    obtain ⟨child, found⟩ : ∃ child, children[entries.countP holds]? = some child :=
      ⟨children[entries.countP holds], List.getElem?_eq_getElem (by omega)⟩
    have listed := weave_at arity found
    have childCut : Cut holds child.toList := by
      refine cut.of_sublist ?_
      rw [toList, listed]
      exact (List.sublist_append_right _ _).trans (List.sublist_append_left _ _)
    obtain ⟨rest, descended, enters⟩ :=
      inductionHypothesis child (List.mem_of_getElem? found) childCut
    have front := inFront_yes arity found cut entriesCut.take_countP
    have back := behind_no arity found cut entriesCut.drop_countP
    have count : (branch capacities.branch total entries children).toList.countP holds =
        (inFront entries children (entries.countP holds)).length +
          child.toList.countP holds := by
      have none : (behind entries children (entries.countP holds)).countP holds = 0 := by
        rw [List.countP_eq_zero]
        intro entry member
        simp [back entry member]
      rw [toList, listed, List.countP_append, List.countP_append, none, Nat.add_zero,
        List.countP_eq_length.mpr front]
    refine ⟨⟨.branch capacities.branch total entries children, entries.countP holds⟩ :: rest,
      ?_, ?_⟩
    · simp only [descend, number, descendInto_eq _ _ _ child found, descended,
        Checked.ok_bind, Checked.pure_eq]
    · rw [count]
      exact .branch found enters

end Node

namespace Trail.Enters

variable {capacities : Capacities} {height gap : Nat} {node : Node κ ν} {trail : Trail κ ν}

/-- A gap lies inside the subtree or at one of its ends. -/
theorem gap_le (enters : Enters node trail gap) (shaped : Node.Shaped capacities height node) :
    gap ≤ node.toList.length := by
  induction enters generalizing height with
  | leaf inside => simpa [Node.toList] using inside
  | branch found below inductionHypothesis =>
    cases shaped with
    | branch fits separated arity counted shaped filled =>
      have inside := inductionHypothesis (shaped _ (List.mem_of_getElem? found))
      rw [Node.toList, Node.weave_at arity found]
      simp only [List.length_append]
      omega

/-- The counts along a descent add up to the entries in front of its gap, as long as the
whole count is a machine word. -/
theorem countAfter_eq {above : Nat} (enters : Enters node trail gap)
    (shaped : Node.Shaped capacities height node) (small : above + node.total < Fault.wordLimit) :
    trail.countAfter above = .ok (above + gap) := by
  induction enters generalizing height above with
  | @leaf capacity total gap entries inside =>
    have total := shaped.total_eq
    simp only [Node.toList] at total
    have word : above + gap < Fault.wordLimit := by omega
    have small : gap < Fault.wordLimit := by omega
    simp [Trail.countAfter, Frame.before, Node.childrenTotal, checkedSum, word, small]
  | @branch capacity total number gap entries children child rest found below
      inductionHypothesis =>
    cases shaped with
    | branch fits separated arity counted shaped filled =>
      obtain ⟨inside, _⟩ := List.getElem?_eq_some_iff.mp found
      have childShaped := shaped child (List.mem_of_getElem? found)
      have front := Node.length_inFront arity shaped number (by omega)
      have length := counted.trans (congrArg List.length (Node.weave_at arity found))
      simp only [List.length_append, front, ← childShaped.total_eq] at length
      simp only [Node.total] at small
      have lowerSmall : Node.totalOfAll (children.take number) < Fault.wordLimit := by omega
      have frontSmall : number + Node.totalOfAll (children.take number) < Fault.wordLimit := by
        omega
      have word : above + (number + Node.totalOfAll (children.take number)) < Fault.wordLimit := by
        omega
      have reached : number ≤ children.length := by omega
      have lower := inductionHypothesis childShaped
        (show above + (number + Node.totalOfAll (children.take number)) + child.total < _ by omega)
      simp [Trail.countAfter, Frame.before, Node.childrenTotal, reached, checkedSum, lowerSmall,
        frontSmall, word, lower, front, Nat.add_assoc]

/-- A descent into a whole tree has its gap for a count. -/
theorem countBefore_eq (enters : Enters node trail gap)
    (shaped : Node.Shaped capacities height node) (small : node.total < Fault.wordLimit) :
    trail.countBefore = .ok gap := by
  have small : 0 + node.total < Fault.wordLimit := by rwa [Nat.zero_add]
  have counted := enters.countAfter_eq shaped small
  rwa [Nat.zero_add] at counted

end Trail.Enters

end CountedBTree
