import CountedBTree.Tree.Write
import CountedBTree.Proofs.Descent
import CountedBTree.Proofs.ValueChange

/-!
# Handing an update up a trail

An updating insertion that has gone down to the gap of its key looks at one entry, the one
directly in front of the gap. With an equal key there, that entry takes the value; without,
the insertion goes on as if no update had been asked for.

The entry in front of the gap is in the leaf unless the gap is at the very start of the
leaf. Then it is the separator before the deepest child on the way that is not a first
child, and everything below that child hands the update up unchanged.
-/

namespace CountedBTree

variable {κ ν : Type}

/-- Replacing the value in front of a frame's number keeps the key there. -/
theorem Frame.replaceBefore_eq (node : Node κ ν) (number : Nat) (value : ν) {entry : κ × ν}
    (present : node.entries[number]? = some entry) :
    Frame.replaceBefore ⟨node, number + 1⟩ value =
      .ok (.replaced (node.withEntries (node.entries.set number (entry.1, value))) entry.2) := by
  simp [Frame.replaceBefore, Node.changeValue, present]

variable [Ord κ]

/-- The entry directly in front of a gap of a run, if its key equals `key`. -/
def equalBefore (key : κ) (run : List (κ × ν)) : Nat → Option (κ × ν)
  | 0 => none
  | place + 1 => entryEqualTo key run place

/-- A frame follows an equal entry when its number is a gap of its node behind one. -/
theorem Frame.followsEqual_eq (frame : Frame κ ν) (key : κ) :
    frame.followsEqual key = (equalBefore key frame.node.entries frame.number).isSome := by
  rcases frame with ⟨node, number⟩
  cases number <;> rfl

/-- An equal entry at a slot is the entry there. -/
theorem entryEqualTo_eq_some {key : κ} {run : List (κ × ν)} {place : Nat} {entry : κ × ν} :
    CountedBTree.entryEqualTo key run place = some entry ↔
      run[place]? = some entry ∧ (compare entry.1 key).isEq = true := by
  simp [CountedBTree.entryEqualTo, Option.filter_eq_some_iff]

namespace Node

section Hole

variable {entries : List (κ × ν)} {children : List (Node κ ν)} {number : Nat}
variable {child : Node κ ν}

/-- A gap inside a child, not at its start, has the same entry in front of it in the
branch. -/
theorem equalBefore_child (arity : children.length = entries.length + 1)
    (found : children[number]? = some child) (key : κ) {gap : Nat}
    (inside : gap < child.toList.length) :
    equalBefore key (weave (toLists children) entries)
        ((inFront entries children number).length + (gap + 1)) =
      equalBefore key child.toList (gap + 1) := by
  rw [← Nat.add_assoc]
  simp only [equalBefore, CountedBTree.entryEqualTo, weave_getElem?_child arity found inside]

/-- The start of a child has the separator before it in front of it. -/
theorem equalBefore_separator (arity : children.length = entries.length + 1)
    (found : children[number]? = some child) (inside : number < entries.length) (key : κ) :
    equalBefore key (weave (toLists children) entries)
        (inFront entries children (number + 1)).length =
      equalBefore key entries (number + 1) := by
  rw [length_inFront_succ arity found inside]
  simp only [equalBefore, CountedBTree.entryEqualTo, weave_getElem?_separator arity found inside,
    List.getElem?_eq_getElem inside]

/-- Without an equal key in front of a gap inside a child, the separator before that child
has no equal key either: the entries between the two are not greater than the key and would
have to be equal as well. -/
theorem equalBefore_entries [Std.TransOrd κ] {key : κ} {gap : Nat}
    (arity : children.length = entries.length + 1) (found : children[number]? = some child)
    (within : gap ≤ child.toList.length)
    (ascending : Ascending
      (inFront entries children number ++ child.toList ++ behind entries children number))
    (before : ∀ entry ∈ child.toList.take gap, (compare entry.1 key).isLE = true)
    (absent : equalBefore key (weave (toLists children) entries)
      ((inFront entries children number).length + gap) = none) :
    equalBefore key entries number = none := by
  cases number with
  | zero => rfl
  | succ number =>
    have bound := (List.getElem?_eq_some_iff.mp found).1
    have inside : number < entries.length := by omega
    have previous : children[number]? = some children[number] :=
      List.getElem?_eq_getElem (by omega)
    cases gap with
    | zero =>
      rwa [Nat.add_zero, equalBefore_separator arity previous inside] at absent
    | succ gap =>
      rw [equalBefore_child arity found key within] at absent
      refine Option.eq_none_iff_forall_ne_some.mpr ?_
      intro separator equal
      obtain ⟨present, sameKey⟩ := entryEqualTo_eq_some.mp equal
      have last : child.toList[gap]? = some child.toList[gap] := List.getElem?_eq_getElem within
      have notGreater := before child.toList[gap] (List.mem_take_iff_getElem.mpr
        ⟨gap, by omega, rfl⟩)
      have ordered : (compare separator.1 child.toList[gap].1).isLE = true := by
        have separatorEq : entries[number] = separator := by
          simpa [List.getElem?_eq_getElem inside] using present
        rw [inFront_succ arity previous inside, separatorEq] at ascending
        have crossing := (List.pairwise_append.mp (List.pairwise_append.mp ascending).1).2.2
        exact crossing separator (by simp) _ (List.getElem_mem within)
      have equalLast := equal_between ordered (by simpa using sameKey) notGreater
      have found : equalBefore key child.toList (gap + 1) = some child.toList[gap] :=
        entryEqualTo_eq_some.mpr ⟨last, by simp [equalLast]⟩
      simp [found] at absent

end Hole

end Node

namespace Trail

variable {capacities : Capacities} {height gap : Nat} {node : Node κ ν} {trail : Trail κ ν}

/-- At the very start of a subtree, an update that some separator in front of it should
take is handed up. -/
theorem insert_deferred (enters : Enters node trail gap)
    (shaped : Node.Shaped capacities height node) (start : gap = 0) (key : κ) (value : ν) :
    trail.insert key value true true = ⟨[], .ok .deferred⟩ := by
  induction enters generalizing height with
  | leaf inside =>
    simp only [Trail.insert, Frame.followsEqual, start, Node.isLeaf]
    rfl
  | @branch capacity total number gap entries children child rest found below
      inductionHypothesis =>
    cases shaped with
    | branch fits separated arity counted shaped filled =>
      have bound := (List.getElem?_eq_some_iff.mp found).1
      have front := Node.length_inFront arity shaped number (by omega)
      have first : number = 0 := by omega
      have handed := inductionHypothesis (shaped child (List.mem_of_getElem? found)) (by omega)
      simp only [Trail.insert, Frame.followsEqual, first, Node.isLeaf, Bool.and_false,
        Bool.or_false, Bool.false_eq_true, ↓reduceIte, handed]
      rfl

/-- With an equal key in front of the gap, the entry there takes the value.

The induction follows the descent. If the gap is not at the start of the child taken, the
entry is inside the child; otherwise it is the separator before the child, which claims what
the child hands up. -/
theorem insert_replaced (enters : Enters node trail gap)
    (shaped : Node.Shaped capacities height node) {key : κ} {entry : κ × ν} (value : ν)
    (equal : equalBefore key node.toList gap = some entry) (above : Bool) :
    ∃ changed, trail.insert key value true above = ⟨[], .ok (.replaced changed entry.2)⟩ ∧
      Node.Rewritten capacities height node (gap - 1) (entry.1, value) changed := by
  induction enters generalizing height above with
  | @leaf capacity total slot entries inside =>
    cases shaped with
    | leaf fits counted =>
      cases slot with
      | zero => simp [equalBefore] at equal
      | succ slot =>
        have here : Frame.followsEqual ⟨.leaf capacities.leaf total entries, slot + 1⟩ key =
            true := by
          rw [Frame.followsEqual_eq]
          exact Option.isSome_of_eq_some equal
        have replaced := Frame.replaceBefore_eq (.leaf capacities.leaf total entries) slot value
          (entryEqualTo_eq_some.mp equal).1
        refine ⟨.leaf capacities.leaf total (entries.set slot (entry.1, value)), ?_,
          (Node.Shaped.leaf fits counted).rewritten_leaf (entryEqualTo_eq_some.mp equal).1 _⟩
        simp only [Trail.insert, here, Node.isLeaf, Bool.and_true, ↓reduceIte, replaced]
        rfl
  | @branch capacity total number gap entries children child rest found below
      inductionHypothesis =>
    have whole := shaped
    cases shaped with
    | branch fits separated arity counted shaped filled =>
      have childShaped := shaped child (List.mem_of_getElem? found)
      have within := below.gap_le childShaped
      have bound := (List.getElem?_eq_some_iff.mp found).1
      cases gap with
      | succ gap =>
        rw [Node.toList, Node.equalBefore_child arity found key within] at equal
        obtain ⟨changed, run, rewritten⟩ := inductionHypothesis childShaped equal
          (above || Frame.followsEqual ⟨.branch capacities.branch total entries children,
            number⟩ key)
        refine ⟨.branch capacities.branch total entries (children.set number changed), ?_,
          whole.rewritten_child found within rewritten⟩
        simp only [Trail.insert, Node.isLeaf, Bool.true_and, Bool.false_eq_true, ↓reduceIte, run]
        rfl
      | zero =>
        cases number with
        | zero => simp [equalBefore] at equal
        | succ number =>
          have inside : number < entries.length := by omega
          have previous : children[number]? = some children[number] :=
            List.getElem?_eq_getElem (by omega)
          rw [Node.toList, Nat.add_zero, Node.equalBefore_separator arity previous inside]
            at equal
          have here : Frame.followsEqual ⟨.branch capacities.branch total entries children,
              number + 1⟩ key = true := by
            rw [Frame.followsEqual_eq]
            exact Option.isSome_of_eq_some equal
          have replaced := Frame.replaceBefore_eq
            (.branch capacities.branch total entries children) number value
            (entryEqualTo_eq_some.mp equal).1
          have handed := insert_deferred below childShaped rfl key value
          have rewritten := whole.rewritten_separator previous
            (entryEqualTo_eq_some.mp equal).1 value
          have place := Node.length_inFront_succ arity previous inside
          refine ⟨.branch capacities.branch total (entries.set number (entry.1, value)) children,
            ?_, by simpa [place] using rewritten⟩
          simp only [Trail.insert, Node.isLeaf, here, Bool.true_and, Bool.or_true,
            Bool.false_eq_true, ↓reduceIte, handed, Frame.settle, replaced,
            Traced.answered_bind]
          rfl

/-- Without an equal key in front of the gap, an updating insertion goes on like a plain
one.

A separator before the child taken could only be equal if everything between it and the gap
were equal, too, and so the entry in front of the gap. -/
theorem insert_absent [Std.TransOrd κ] (enters : Enters node trail gap)
    (shaped : Node.Shaped capacities height node) {key : κ} (value : ν)
    (ascending : Ascending node.toList)
    (before : ∀ entry ∈ node.toList.take gap, (compare entry.1 key).isLE = true)
    (absent : equalBefore key node.toList gap = none) :
    trail.insert key value true false = trail.insert key value false false := by
  induction enters generalizing height with
  | @leaf capacity total slot entries inside =>
    have here : Frame.followsEqual ⟨.leaf capacity total entries, slot⟩ key = false := by
      rw [Frame.followsEqual_eq]
      exact Option.isSome_eq_false_iff.mpr (Option.isNone_iff_eq_none.mpr absent)
    simp only [Trail.insert, here, Bool.and_false]
  | @branch capacity total number gap entries children child rest found below
      inductionHypothesis =>
    cases shaped with
    | branch fits separated arity counted shaped filled =>
      have childShaped := shaped child (List.mem_of_getElem? found)
      have within := below.gap_le childShaped
      have bound := (List.getElem?_eq_some_iff.mp found).1
      rw [Node.toList, Node.weave_at arity found] at ascending before
      have childBefore : ∀ entry ∈ child.toList.take gap, (compare entry.1 key).isLE = true :=
        fun entry member => before entry (mem_take_middle _ _ _ within member)
      have childAbsent : equalBefore key child.toList gap = none := by
        cases gap with
        | zero => rfl
        | succ gap => rwa [Node.toList, Node.equalBefore_child arity found key within] at absent
      have here : Frame.followsEqual ⟨.branch capacities.branch total entries children, number⟩
          key = false := by
        rw [Frame.followsEqual_eq]
        exact Option.isSome_eq_false_iff.mpr (Option.isNone_iff_eq_none.mpr
          (Node.equalBefore_entries arity found within ascending childBefore absent))
      have same := inductionHypothesis childShaped ascending.middle childBefore childAbsent
      simp only [Trail.insert, here, Bool.and_false, Node.isLeaf, Bool.or_false, same]

end Trail

end CountedBTree
