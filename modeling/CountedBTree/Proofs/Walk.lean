import CountedBTree.Trail.Walk
import CountedBTree.Proofs.Reaching

/-!
# Steps are neighbouring offsets

A step forwards from a trail leads to the next offset, and past the last one nowhere; a
step backwards leads to the offset before, and from the first one nowhere. The step never
looks at an offset. Inside a child it is a step of the child, and only the last entry of a
child climbs to the separator after it; a separator descends to the near end of the child
beside it, which is not empty.
-/

namespace CountedBTree

variable {κ ν : Type}

namespace Node

variable {capacities : Capacities} {height offset number : Nat}
variable {entries : List (κ × ν)} {children : List (Node κ ν)} {child : Node κ ν}

/-- A filled child lists something. -/
theorem Shaped.toList_ne_nil (shaped : Shaped capacities height child) (filled : child.Filled) :
    child.toList ≠ [] := by
  have length := shaped.entries_sublist.length_le
  exact List.ne_nil_of_length_pos (Nat.lt_of_lt_of_le filled.1 length)

end Node

namespace Trail

/-- A step below the first frame that stays below it keeps the frame. -/
theorem next_cons (frame : Frame κ ν) {rest moved : Trail κ ν} (more : rest ≠ [])
    (stepped : rest.next = .ok moved) (stays : moved ≠ []) :
    next (frame :: rest) = .ok (frame :: moved) := by
  match rest, moved, more, stays with
  | below :: rest, first :: moved, _, _ => simp [next, stepped]

/-- A step that leaves what is below the first frame stops at the separator after it. -/
theorem next_cons_left (frame : Frame κ ν) {rest : Trail κ ν} (more : rest ≠ [])
    (stepped : rest.next = .ok []) :
    next (frame :: rest) = .ok (if frame.number < frame.node.size then [frame] else []) := by
  match rest, more with
  | below :: rest, _ => simp [next, stepped]

/-- A step backwards below the first frame that stays below it keeps the frame. -/
theorem prev_cons (frame : Frame κ ν) {rest moved : Trail κ ν} (more : rest ≠ [])
    (stepped : rest.prev = .ok moved) (stays : moved ≠ []) :
    prev (frame :: rest) = .ok (frame :: moved) := by
  match rest, moved, more, stays with
  | below :: rest, first :: moved, _, _ => simp [prev, stepped]

/-- A step backwards that leaves what is below the first frame stops at the separator
before it. -/
theorem prev_cons_left (frame : Frame κ ν) {rest : Trail κ ν} (more : rest ≠ [])
    (stepped : rest.prev = .ok []) :
    prev (frame :: rest) =
      .ok (if 0 < frame.number then [⟨frame.node, frame.number - 1⟩] else []) := by
  match rest, more with
  | below :: rest, _ => simp [prev, stepped]

namespace Leads

variable {capacities : Capacities} {height offset : Nat} {node : Node κ ν} {trail : Trail κ ν}

/-- A step from the last entry leads nowhere. A trail to the last entry takes the last
child at every branch, because a separator is never last. -/
theorem next_last (leads : Leads node trail offset)
    (shaped : Node.Shaped capacities height node) (last : offset + 1 = node.toList.length) :
    trail.next = .ok [] := by
  induction leads generalizing height with
  | @leaf capacity total slot entries inside =>
    have ends : ¬ slot + 1 < entries.length := by
      simp only [Node.toList] at last
      omega
    simp [next, Node.isLeaf, Node.size, Node.entries, ends]
  | @separator capacity total slot entries children child found inside =>
    cases shaped with
    | branch fits separated arity counted shaped filled =>
      obtain ⟨after, follows⟩ := Node.next_child arity inside
      have member := List.mem_of_getElem? follows
      have some := List.length_pos_iff.mpr ((shaped _ member).toList_ne_nil (filled _ member))
      have length := congrArg List.length (Node.behind_cons follows inside)
      rw [Node.toList, Node.length_weave_at arity found] at last
      simp only [List.length_cons, List.length_append] at length
      omega
  | @child capacity total number offset entries children child rest found lower
      inductionHypothesis =>
    cases shaped with
    | branch fits separated arity counted shaped filled =>
      have childShaped := shaped child (List.mem_of_getElem? found)
      have within := lower.offset_lt childShaped
      rw [Node.toList, Node.length_weave_at arity found] at last
      have lastChild : ¬ number < entries.length := by
        intro inside
        have behind := Node.length_behind_pos arity inside
        omega
      rw [next_cons_left _ lower.ne_nil (inductionHypothesis childShaped (by omega))]
      simp [Node.size, Node.entries, lastChild]

/-- A step from any other entry leads to the next offset. -/
theorem next_leads (leads : Leads node trail offset)
    (shaped : Node.Shaped capacities height node) (more : offset + 1 < node.toList.length) :
    ∃ moved, trail.next = .ok moved ∧ Leads node moved (offset + 1) := by
  induction leads generalizing height with
  | @leaf capacity total slot entries inside =>
    have further : slot + 1 < entries.length := more
    exact ⟨_, by simp [next, Node.isLeaf, Node.size, Node.entries, further], .leaf further⟩
  | @separator capacity total slot entries children child found inside =>
    cases shaped with
    | branch fits separated arity counted shaped filled =>
      obtain ⟨after, follows⟩ := Node.next_child arity inside
      have member := List.mem_of_getElem? follows
      obtain ⟨moved, descended, leads⟩ :=
        (shaped _ member).leftmost_leads ((shaped _ member).toList_ne_nil (filled _ member))
      rw [← Node.length_inFront_succ arity found inside]
      exact ⟨_, by simp [next, Node.isLeaf, Node.childAt, follows, descended],
        .child follows leads⟩
  | @child capacity total number offset entries children child rest found lower
      inductionHypothesis =>
    cases shaped with
    | branch fits separated arity counted shaped filled =>
      have childShaped := shaped child (List.mem_of_getElem? found)
      have within := lower.offset_lt childShaped
      by_cases stays : offset + 1 < child.toList.length
      · obtain ⟨moved, stepped, leads⟩ := inductionHypothesis childShaped stays
        exact ⟨_, next_cons _ lower.ne_nil stepped leads.ne_nil, .child found leads⟩
      · have lastBelow : offset + 1 = child.toList.length := by omega
        have stepped := next_cons_left ⟨.branch capacities.branch total entries children, number⟩
          lower.ne_nil (lower.next_last childShaped lastBelow)
        have inside : number < entries.length := by
          by_contra none
          have bound := (List.getElem?_eq_some_iff.mp found).1
          have final : number = entries.length := by omega
          rw [Node.toList, Node.length_weave_at arity found, final, Node.behind_last arity,
            List.length_nil] at more
          omega
        rw [Nat.add_assoc, lastBelow]
        refine ⟨_, ?_, .separator found inside⟩
        simpa [Node.size, Node.entries, inside] using stepped

/-- A step backwards from the first entry leads nowhere. A trail to the first entry takes
the first child at every branch. -/
theorem prev_first (leads : Leads node trail offset)
    (shaped : Node.Shaped capacities height node) (first : offset = 0) :
    trail.prev = .ok [] := by
  induction leads generalizing height with
  | leaf inside => simp [prev, Node.isLeaf, first]
  | @separator capacity total slot entries children child found inside =>
    cases shaped with
    | branch fits separated arity counted shaped filled =>
      have member := List.mem_of_getElem? found
      have some := List.length_pos_iff.mpr ((shaped _ member).toList_ne_nil (filled _ member))
      omega
  | @child capacity total number offset entries children child rest found lower
      inductionHypothesis =>
    cases shaped with
    | branch fits separated arity counted shaped filled =>
      have childShaped := shaped child (List.mem_of_getElem? found)
      have bound := (List.getElem?_eq_some_iff.mp found).1
      have front := Node.length_inFront arity shaped number (by omega)
      have firstChild : number = 0 := by omega
      rw [prev_cons_left _ lower.ne_nil (inductionHypothesis childShaped (by omega))]
      simp [firstChild]

/-- A step backwards from any other entry leads to the offset before. -/
theorem prev_leads (leads : Leads node trail (offset + 1))
    (shaped : Node.Shaped capacities height node) :
    ∃ moved, trail.prev = .ok moved ∧ Leads node moved offset := by
  generalize there : offset + 1 = position at leads
  induction leads generalizing height offset with
  | @leaf capacity total slot entries inside =>
    have before : slot - 1 = offset := by omega
    refine ⟨[⟨.leaf capacity total entries, slot - 1⟩], ?_, ?_⟩
    · simp [prev, Node.isLeaf]
      omega
    · rw [before]
      exact .leaf (by omega)
  | @separator capacity total slot entries children child found inside =>
    cases shaped with
    | branch fits separated arity counted shaped filled =>
      have member := List.mem_of_getElem? found
      have some := (shaped _ member).toList_ne_nil (filled _ member)
      obtain ⟨moved, descended, leads⟩ := (shaped _ member).rightmost_leads some
      have positive := List.length_pos_iff.mpr some
      have before : offset = (Node.inFront entries children slot).length +
          (child.toList.length - 1) := by omega
      rw [before]
      exact ⟨_, by simp [prev, Node.isLeaf, Node.childAt, found, descended],
        .child found leads⟩
  | @child capacity total number lowerOffset entries children child rest found lower
      inductionHypothesis =>
    cases shaped with
    | branch fits separated arity counted shaped filled =>
      have childShaped := shaped child (List.mem_of_getElem? found)
      have bound := (List.getElem?_eq_some_iff.mp found).1
      cases lowerOffset with
      | succ lowerOffset =>
        obtain ⟨moved, stepped, leads⟩ := inductionHypothesis childShaped rfl
        have before : offset = (Node.inFront entries children number).length + lowerOffset := by
          omega
        rw [before]
        exact ⟨_, prev_cons _ lower.ne_nil stepped leads.ne_nil, .child found leads⟩
      | zero =>
        have stepped := prev_cons_left ⟨.branch capacities.branch total entries children, number⟩
          lower.ne_nil (lower.prev_first childShaped rfl)
        cases number with
        | zero => simp at there
        | succ number =>
          have inside : number < entries.length := by omega
          have previous : children[number]? = some children[number] :=
            List.getElem?_eq_getElem (by omega)
          have front := Node.length_inFront_succ arity previous inside
          have before : offset = (Node.inFront entries children number).length +
              children[number].toList.length := by omega
          rw [before]
          exact ⟨_, by simpa using stepped, .separator previous inside⟩

end Leads

end Trail

end CountedBTree
