import CountedBTree.Tree.Basic
import CountedBTree.Proofs.Runs
import CountedBTree.Proofs.Shape

/-!
# Positions by offset

A trail that ends at an entry leads to one offset of the subtree. In a leaf that is the
slot. In a branch it is either that of the separator the trail stops at, behind the child
before it, or that of the entry reached inside the child taken, moved up by everything in
front of that child.

Every way of building a trail is a way of reaching an offset: counting entries reaches the
offset asked for, going down either side reaches the first and the last one, and following
the numbers of a place reaches whatever offset the place was taken at. The counts stored
along a trail add up to its offset again.
-/

namespace CountedBTree

variable {α κ ν : Type}

/-- An offset inside the middle one of three runs. -/
theorem getElem?_middle (front inside back : List α) {offset : Nat}
    (within : offset < inside.length) :
    (front ++ inside ++ back)[front.length + offset]? = inside[offset]? := by
  rw [List.append_assoc, List.getElem?_append_right (by omega),
    List.getElem?_append_left (by omega), Nat.add_sub_cancel_left]

/-- The trail leads from the node to the entry with `offset` entries of the subtree in
front of it. -/
inductive Trail.Leads : Node κ ν → Trail κ ν → Nat → Prop where
  | leaf {capacity total slot : Nat} {entries : List (κ × ν)}
      (inside : slot < entries.length) :
      Trail.Leads (.leaf capacity total entries) [⟨.leaf capacity total entries, slot⟩] slot
  | separator {capacity total slot : Nat} {entries : List (κ × ν)}
      {children : List (Node κ ν)} {child : Node κ ν}
      (found : children[slot]? = some child) (inside : slot < entries.length) :
      Trail.Leads (.branch capacity total entries children)
        [⟨.branch capacity total entries children, slot⟩]
        ((Node.inFront entries children slot).length + child.toList.length)
  | child {capacity total number offset : Nat} {entries : List (κ × ν)}
      {children : List (Node κ ν)} {child : Node κ ν} {rest : Trail κ ν}
      (found : children[number]? = some child) (lower : Trail.Leads child rest offset) :
      Trail.Leads (.branch capacity total entries children)
        (⟨.branch capacity total entries children, number⟩ :: rest)
        ((Node.inFront entries children number).length + offset)

namespace Node

section Offsets

variable {entries : List (κ × ν)} {children : List (Node κ ν)} {number : Nat}
variable {child : Node κ ν}

/-- A child that is followed by a separator is followed by another child, too. -/
theorem next_child (arity : children.length = entries.length + 1)
    (inside : number < entries.length) : ∃ next, children[number + 1]? = some next :=
  ⟨children[number + 1], List.getElem?_eq_getElem (by omega)⟩

/-- The entries of a child keep their order within those of the branch. -/
theorem weave_getElem?_child (arity : children.length = entries.length + 1)
    (found : children[number]? = some child) {offset : Nat}
    (within : offset < child.toList.length) :
    (weave (toLists children) entries)[(inFront entries children number).length + offset]? =
      child.toList[offset]? := by
  rw [weave_at arity found]
  exact getElem?_middle _ _ _ within

/-- A separator comes directly behind the child before it. -/
theorem weave_getElem?_separator (arity : children.length = entries.length + 1)
    (found : children[number]? = some child) (inside : number < entries.length) :
    (weave (toLists children) entries)[(inFront entries children number).length +
      child.toList.length]? = some entries[number] := by
  obtain ⟨next, follows⟩ := next_child arity inside
  rw [weave_at arity found, behind_cons follows inside,
    List.getElem?_append_right (by simp), List.length_append, Nat.sub_self]
  rfl

/-- The entries of a branch lie in front of a child, in it, and behind it. -/
theorem length_weave_at (arity : children.length = entries.length + 1)
    (found : children[number]? = some child) :
    (weave (toLists children) entries).length = (inFront entries children number).length +
      child.toList.length + (behind entries children number).length := by
  rw [weave_at arity found, List.length_append, List.length_append]

/-- The next child has one entry more in front of it than this one and its entries. -/
theorem length_inFront_succ (arity : children.length = entries.length + 1)
    (found : children[number]? = some child) (inside : number < entries.length) :
    (inFront entries children (number + 1)).length =
      (inFront entries children number).length + child.toList.length + 1 := by
  rw [inFront_succ arity found inside]
  simp only [List.length_append, List.length_cons, List.length_nil]

/-- Something is behind a child that a separator follows. -/
theorem length_behind_pos (arity : children.length = entries.length + 1)
    (inside : number < entries.length) : 0 < (behind entries children number).length := by
  obtain ⟨next, follows⟩ := next_child arity inside
  simp [behind_cons follows inside]

/-- One child more adds what it counts. -/
theorem totalOfAll_take_succ (found : children[number]? = some child) :
    totalOfAll (children.take (number + 1)) =
      totalOfAll (children.take number) + child.total := by
  induction children generalizing number with
  | nil => simp at found
  | cons first rest inductionHypothesis =>
    cases number with
    | zero =>
      have same : first = child := by simpa using found
      simp [totalOfAll, same]
    | succ number =>
      have later : rest[number]? = some child := by simpa using found
      simp only [List.take_succ_cons, totalOfAll, inductionHypothesis later]
      omega

end Offsets

end Node

namespace Trail

/-- The entry of a trail is that of its part below the first frame. -/
theorem entry_cons (frame : Frame κ ν) {rest : Trail κ ν} (more : rest ≠ []) :
    entry? (frame :: rest) = rest.entry? := by
  cases rest with
  | nil => exact absurd rfl more
  | cons next rest => rfl

/-- The position of a trail is counted on from what is in front of the child taken. -/
theorem positionAfter_cons (counted : Nat) (frame : Frame κ ν) {rest : Trail κ ν}
    (more : rest ≠ []) : positionAfter counted (frame :: rest) = frame.before >>= fun here =>
      checkedSum (counted + here) >>= fun above => rest.positionAfter above := by
  cases rest with
  | nil => exact absurd rfl more
  | cons next rest => rfl

namespace Leads

variable {capacities : Capacities} {height offset : Nat} {node : Node κ ν} {trail : Trail κ ν}

/-- The empty trail leads nowhere. -/
theorem ne_nil (leads : Leads node trail offset) : trail ≠ [] := by
  cases leads <;> simp

/-- A trail leads inside the subtree. -/
theorem offset_lt (leads : Leads node trail offset)
    (shaped : Node.Shaped capacities height node) : offset < node.toList.length := by
  induction leads generalizing height with
  | leaf inside => exact inside
  | separator found inside =>
    cases shaped with
    | branch fits separated arity counted shaped filled =>
      have behind := Node.length_behind_pos arity inside
      rw [Node.toList, Node.length_weave_at arity found]
      omega
  | child found lower inductionHypothesis =>
    cases shaped with
    | branch fits separated arity counted shaped filled =>
      have within := inductionHypothesis (shaped _ (List.mem_of_getElem? found))
      rw [Node.toList, Node.length_weave_at arity found]
      omega

/-- The entry at the end of a trail is the one at its offset. -/
theorem entry_eq (leads : Leads node trail offset)
    (shaped : Node.Shaped capacities height node) :
    ∃ entry, node.toList[offset]? = some entry ∧ trail.entry? = .ok (some entry) := by
  induction leads generalizing height with
  | @leaf capacity total slot entries inside =>
    have present : entries[slot]? = some entries[slot] := List.getElem?_eq_getElem inside
    exact ⟨entries[slot], present, by
      simp [Trail.entry?, Trail.last?, Node.entryAt, Node.entries, present]⟩
  | @separator capacity total slot entries children child found inside =>
    cases shaped with
    | branch fits separated arity counted shaped filled =>
      have present : entries[slot]? = some entries[slot] := List.getElem?_eq_getElem inside
      exact ⟨entries[slot], Node.weave_getElem?_separator arity found inside, by
        simp [Trail.entry?, Trail.last?, Node.entryAt, Node.entries, present]⟩
  | child found lower inductionHypothesis =>
    cases shaped with
    | branch fits separated arity counted shaped filled =>
      have childShaped := shaped _ (List.mem_of_getElem? found)
      obtain ⟨entry, present, reached⟩ := inductionHypothesis childShaped
      refine ⟨entry, ?_, (entry_cons _ lower.ne_nil).trans reached⟩
      exact (Node.weave_getElem?_child arity found (lower.offset_lt childShaped)).trans present

/-- The counts along a trail add up to its offset, as long as the whole count is a machine
word. -/
theorem positionAfter_eq {above : Nat} (leads : Leads node trail offset)
    (shaped : Node.Shaped capacities height node) (small : above + node.total < Fault.wordLimit) :
    trail.positionAfter above = .ok (some (above + offset)) := by
  have inside := leads.offset_lt shaped
  induction leads generalizing height above with
  | @leaf capacity total slot entries within =>
    have total := shaped.total_eq
    have word : above + slot < Fault.wordLimit := by omega
    simp [positionAfter, Node.offsetOfSlot, Node.isLeaf, checkedSum, word]
  | @separator capacity total slot entries children child found within =>
    cases shaped with
    | branch fits separated arity counted shaped filled =>
      have front := Node.length_inFront arity shaped slot (by omega)
      have childTotal := (shaped child (List.mem_of_getElem? found)).total_eq
      have taken := Node.totalOfAll_take_succ found
      simp only [Node.toList, ← counted, Node.total] at inside small
      have reached : slot + 1 ≤ children.length := by omega
      have lower : Node.totalOfAll (children.take (slot + 1)) < Fault.wordLimit := by omega
      have whole : slot + Node.totalOfAll (children.take (slot + 1)) < Fault.wordLimit := by
        omega
      have word :
          above + (slot + Node.totalOfAll (children.take (slot + 1))) < Fault.wordLimit := by
        omega
      simp [positionAfter, Node.offsetOfSlot, Node.isLeaf, Node.childrenTotal, reached, checkedSum,
        lower, whole, word, Except.mapError]
      omega
  | @child capacity total number offset entries children child rest found lower
      inductionHypothesis =>
    cases shaped with
    | branch fits separated arity counted shaped filled =>
      have childShaped := shaped child (List.mem_of_getElem? found)
      have front := Node.length_inFront arity shaped number
        (by have := (List.getElem?_eq_some_iff.mp found).1; omega)
      have length := counted.trans (Node.length_weave_at arity found)
      rw [← childShaped.total_eq] at length
      simp only [Node.total] at small
      have reached : number ≤ children.length := by
        have := (List.getElem?_eq_some_iff.mp found).1
        omega
      have lowerSmall : Node.totalOfAll (children.take number) < Fault.wordLimit := by omega
      have frontSmall : number + Node.totalOfAll (children.take number) < Fault.wordLimit := by
        omega
      have word : above + (number + Node.totalOfAll (children.take number)) < Fault.wordLimit := by
        omega
      have before : (⟨.branch capacities.branch total entries children, number⟩ :
          Frame κ ν).before = .ok (number + Node.totalOfAll (children.take number)) := by
        simp [Frame.before, Node.childrenTotal, reached, checkedSum, lowerSmall, frontSmall]
      have reachedBelow := inductionHypothesis childShaped
        (show above + (number + Node.totalOfAll (children.take number)) + child.total < _ by omega)
        (lower.offset_lt childShaped)
      rw [positionAfter_cons _ _ lower.ne_nil, before, Checked.ok_bind, checkedSum, if_pos word,
        Checked.ok_bind, reachedBelow, front, Nat.add_assoc]

/-- A trail into a whole tree has its offset for a position. -/
theorem position_eq (leads : Leads node trail offset)
    (shaped : Node.Shaped capacities height node) (small : node.total < Fault.wordLimit) :
    trail.position? = .ok (some offset) := by
  have small : 0 + node.total < Fault.wordLimit := by rwa [Nat.zero_add]
  have counted := leads.positionAfter_eq shaped small
  rwa [Nat.zero_add] at counted

end Leads

end Trail

end CountedBTree
