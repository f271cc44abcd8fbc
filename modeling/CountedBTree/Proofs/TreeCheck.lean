import CountedBTree.Proofs.TreeInsertion

/-!
# The checks pass

A subtree in shape whose entries ascend keeps every key between the separators around the
child it is in. The full check looks for less, comparing only the ends of each child with
the separators beside it, and therefore passes at every node.
-/

namespace CountedBTree

variable {κ ν : Type} [Ord κ]

namespace Node

/-- At every node the entries ascend, and all keys below a child lie between the separators
before and after that child, either of which they may equal. -/
inductive Fenced : Node κ ν → Prop where
  | leaf {capacity total : Nat} {entries : List (κ × ν)} (ascending : Ascending entries) :
      Fenced (.leaf capacity total entries)
  | branch {capacity total : Nat} {entries : List (κ × ν)} {children : List (Node κ ν)}
      (ascending : Ascending entries)
      (above : ∀ (number : Nat) (separator : κ × ν) (child : Node κ ν),
        entries[number]? = some separator → children[number + 1]? = some child →
        ∀ entry ∈ child.toList, (compare separator.1 entry.1).isLE = true)
      (below : ∀ (number : Nat) (separator : κ × ν) (child : Node κ ν),
        entries[number]? = some separator → children[number]? = some child →
        ∀ entry ∈ child.toList, (compare entry.1 separator.1).isLE = true)
      (fenced : ∀ child ∈ children, Fenced child) :
      Fenced (.branch capacity total entries children)

/-- A branch whose entries ascend is fenced when its children are, as the entries of each
child ascend, too. -/
theorem Fenced.of_ascending {capacity total : Nat} {entries : List (κ × ν)}
    {children : List (Node κ ν)} (arity : children.length = entries.length + 1)
    (ascending : Ascending (weave (toLists children) entries))
    (fenced : ∀ child ∈ children, Ascending child.toList → child.Fenced) :
    Fenced (.branch capacity total entries children) := by
  have separators : entries.Sublist (weave (toLists children) entries) := by
    refine separators_sublist_weave _ _ ?_
    simp only [toLists_eq_map, List.length_map]
    omega
  refine .branch (ascending.of_sublist separators) ?_ ?_ ?_
  · intro number separator child atNumber found entry member
    obtain ⟨inside, same⟩ := List.getElem?_eq_some_iff.mp atNumber
    have previous : children[number]? = some children[number] :=
      List.getElem?_eq_getElem (by omega)
    rw [weave_at arity found, inFront_succ arity previous inside, same] at ascending
    have crossing := (List.pairwise_append.mp (List.pairwise_append.mp ascending).1).2.2
    exact crossing separator (by simp) entry member
  · intro number separator child atNumber found entry member
    obtain ⟨inside, same⟩ := List.getElem?_eq_some_iff.mp atNumber
    obtain ⟨next, follows⟩ := next_child arity inside
    rw [weave_at arity found, behind_cons follows inside, same] at ascending
    have crossing := (List.pairwise_append.mp ascending).2.2
    exact crossing entry (List.mem_append_right _ member) separator List.mem_cons_self
  · intro child member
    obtain ⟨number, found⟩ := List.mem_iff_getElem?.mp member
    rw [weave_at arity found] at ascending
    exact fenced child member ascending.middle

/-- A subtree in shape whose entries ascend is fenced at every node. -/
theorem Shaped.fenced {capacities : Capacities} {height : Nat} {node : Node κ ν}
    (shaped : Shaped capacities height node) (ascending : Ascending node.toList) :
    node.Fenced := by
  induction shaped with
  | leaf fits counted => exact .leaf ascending
  | branch fits separated arity counted shaped filled inductionHypothesis =>
    exact .of_ascending arity ascending inductionHypothesis

variable [Std.TransOrd κ]

/-- The children between a separator already passed and those still ahead are lined up.

The induction goes along the children. What is listed from a child on begins with that
child and the separator after it, so the separator is not less than the child's last key and
not greater than anything that follows. -/
theorem lined_of_ascending {capacities : Capacities} {height : Nat}
    (children : List (Node κ ν)) (entries : List (κ × ν)) (passed : Option κ)
    (arity : children.length = entries.length + 1)
    (shaped : ∀ child ∈ children, Shaped capacities height child)
    (filled : ∀ child ∈ children, child.Filled)
    (ascending : Ascending (weave (toLists children) entries))
    (beyond : ∀ bound ∈ passed, ∀ entry ∈ weave (toLists children) entries,
      (compare bound entry.1).isLE = true) :
    Lined passed (entries.map Prod.fst) children := by
  induction children generalizing entries passed with
  | nil => simp at arity
  | cons child rest inductionHypothesis =>
    have childShaped := shaped child List.mem_cons_self
    have occupied : child.isEmpty = false := by
      have positive := (filled child List.mem_cons_self).1
      simpa [isEmpty, size, List.length_pos_iff] using positive
    have inChild : ∀ entry ∈ child.entries, entry ∈ child.toList :=
      fun entry member => childShaped.entries_sublist.subset member
    have notBelow : child.notBelow passed = true := by
      cases passed with
      | none => rfl
      | some bound =>
        cases first : child.entries.head? with
        | none => simp [Node.notBelow, first]
        | some entry =>
          have member := inChild entry (List.mem_of_head? first)
          have within : entry ∈ weave (toLists (child :: rest)) entries := by
            cases entries <;> simp [toLists, weave, member]
          have ordered := beyond bound rfl entry within
          simpa [Node.notBelow, first] using Std.OrientedCmp.isGE_of_isLE ordered
    cases entries with
    | nil =>
      have last : rest = [] := by simpa using arity
      subst last
      exact ⟨occupied, notBelow, rfl, trivial⟩
    | cons separator entries =>
      have ordered : Ascending (child.toList ++ separator :: weave (toLists rest) entries) :=
        ascending
      have crossing := (List.pairwise_append.mp ordered).2.2
      have behind := (List.pairwise_append.mp ordered).2.1
      have notAbove : child.notAbove (some separator.1) = true := by
        cases last : child.entries.getLast? with
        | none => simp [Node.notAbove, last]
        | some entry =>
          have member := inChild entry (List.mem_of_getLast? last)
          simpa [Node.notAbove, last] using crossing entry member separator List.mem_cons_self
      have others := inductionHypothesis entries (some separator.1) (by simpa using arity)
        (fun other member => shaped other (List.mem_cons_of_mem _ member))
        (fun other member => filled other (List.mem_cons_of_mem _ member))
        (List.pairwise_cons.mp behind).2
        (by
          intro bound isPassed entry member
          obtain rfl : separator.1 = bound := by simpa using isPassed
          exact (List.pairwise_cons.mp behind).1 entry member)
      exact ⟨occupied, notBelow, notAbove, others⟩

/-- A subtree in shape passes every inspection when its entries ascend and its count is a
machine word. -/
theorem Shaped.inspected {capacities : Capacities} {height : Nat} {node : Node κ ν}
    (shaped : Shaped capacities height node) (ascending : Ascending node.toList)
    (small : node.total < Fault.wordLimit) : Inspected height node := by
  induction shaped with
  | leaf fits counted => exact .leaf ((Shaped.leaf fits counted).settled ascending small)
  | @branch height total entries children fits separated arity counted shaped filled
      inductionHypothesis =>
    have whole : Shaped capacities (height + 1)
        (.branch capacities.branch total entries children) :=
      .branch fits separated arity counted shaped filled
    refine .branch (whole.settled ascending small) separated ?_ ?_
    · exact lined_of_ascending children entries none arity shaped filled ascending (by simp)
    · intro child member
      obtain ⟨number, found⟩ := List.mem_iff_getElem?.mp member
      have smaller := whole.child_total_lt found
      rw [toList, weave_at arity found] at ascending
      exact inductionHypothesis child member ascending.middle (Nat.lt_trans smaller small)

end Node

/-- A sound tree passes all checks. -/
theorem Tree.Sound.check_ok [Footprint κ] [Footprint ν] [Std.TransOrd κ] {tree : Tree κ ν}
    (sound : tree.Sound) : tree.check = .ok () := by
  obtain ⟨height, shaped⟩ := sound.shaped
  have checked := (Node.check_iff _ _).mpr (shaped.inspected sound.ascending sound.small)
  simp [Tree.check, checked, Tree.height, shaped.height_eq]

end CountedBTree
