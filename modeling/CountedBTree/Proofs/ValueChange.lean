import CountedBTree.Node.Edit
import CountedBTree.Proofs.Reaching

/-!
# Changing one value

Changing the value of one entry changes nothing else. The node changed keeps its size, and
every node above it keeps its own entries and its count, so the subtree stays in shape and
lists the same entries with one of them replaced. What a subtree is apart from its values is
its outline, and the outline stays as it was.

A change is made along the numbers of a place. It is carried out exactly where the numbers
can be followed to an entry.
-/

namespace CountedBTree

variable {κ ν : Type}

namespace Node

mutual

/-- The subtree with its values forgotten: of every node the kind, the capacity, the stored
count and the stored keys. -/
def outline : Node κ ν → Node κ Unit
  | leaf capacity total entries =>
      .leaf capacity total (entries.map fun entry => (entry.1, ()))
  | branch capacity total entries children =>
      .branch capacity total (entries.map fun entry => (entry.1, ())) (outlines children)

/-- The outline of each of several subtrees. -/
def outlines : List (Node κ ν) → List (Node κ Unit)
  | [] => []
  | child :: rest => child.outline :: outlines rest

end

theorem outlines_eq_map (children : List (Node κ ν)) :
    outlines children = children.map outline := by
  induction children with
  | nil => rfl
  | cons child rest inductionHypothesis => simp [outlines, inductionHypothesis]

/-- An outline stores the count of its subtree. -/
@[simp]
theorem total_outline (node : Node κ ν) : node.outline.total = node.total := by
  cases node <;> rfl

/-- Subtrees with one outline store one count. -/
theorem total_of_outline {node other : Node κ ν} (same : node.outline = other.outline) :
    node.total = other.total := by
  rw [← total_outline node, same, total_outline other]

/-- Another value beside the same key leaves the keys of an outline as they are. -/
theorem outline_keys {entries : List (κ × ν)} {place : Nat} {key : κ} {old : ν}
    (present : entries[place]? = some (key, old)) (value : ν) :
    (entries.set place (key, value)).map (fun entry => (entry.1, ())) =
      entries.map fun entry => (entry.1, ()) := by
  have keys := congrArg (List.map fun key => (key, ())) (set_keys present value)
  simpa only [List.map_map, Function.comp_def] using keys

/-- A child with the same outline in its place leaves the outlines as they are. -/
theorem outlines_set {children : List (Node κ ν)} {number : Nat} {child changed : Node κ ν}
    (found : children[number]? = some child) (same : changed.outline = child.outline) :
    outlines (children.set number changed) = outlines children := by
  obtain ⟨inside, rfl⟩ := List.getElem?_eq_some_iff.mp found
  rw [outlines_eq_map, outlines_eq_map, List.map_set, same, ← List.map_set,
    List.set_getElem_self]

/-- The node is in shape, has the size and the outline of another one, and lists what that
one lists with `entry` put at `offset`. -/
structure Rewritten (capacities : Capacities) (height : Nat) (node : Node κ ν) (offset : Nat)
    (entry : κ × ν) (changed : Node κ ν) : Prop where
  shaped : Shaped capacities height changed
  size_eq : changed.size = node.size
  listed : changed.toList = node.toList.set offset entry
  outline_eq : changed.outline = node.outline

section Rewriting

variable {capacities : Capacities} {height total number offset : Nat}
variable {entries : List (κ × ν)} {children : List (Node κ ν)} {child changed : Node κ ν}

/-- A leaf with one value replaced. -/
theorem Shaped.rewritten_leaf (shaped : Shaped capacities 0 (.leaf capacities.leaf total entries))
    {slot : Nat} {key : κ} {old : ν} (present : entries[slot]? = some (key, old)) (value : ν) :
    Rewritten capacities 0 (.leaf capacities.leaf total entries) slot (key, value)
      (.leaf capacities.leaf total (entries.set slot (key, value))) := by
  cases shaped with
  | leaf fits counted =>
    exact ⟨.leaf (by simpa using fits) (by simpa using counted), by simp [size, Node.entries],
      rfl, by simp only [outline, outline_keys present]⟩

/-- A branch with the value of one separator replaced. -/
theorem Shaped.rewritten_separator
    (shaped : Shaped capacities (height + 1) (.branch capacities.branch total entries children))
    (found : children[number]? = some child) {key : κ} {old : ν}
    (present : entries[number]? = some (key, old)) (value : ν) :
    Rewritten capacities (height + 1) (.branch capacities.branch total entries children)
      ((inFront entries children number).length + child.toList.length) (key, value)
      (.branch capacities.branch total (entries.set number (key, value)) children) := by
  obtain ⟨inside, _⟩ := List.getElem?_eq_some_iff.mp present
  cases shaped with
  | branch fits separated arity counted shaped filled =>
    have listed := weave_set_separator arity found inside (key, value)
    refine ⟨.branch (by simpa using fits) (by simpa using separated) (by simpa using arity) ?_
      shaped filled, by simp [size, Node.entries], listed,
      by simp only [outline, outline_keys present]⟩
    rw [counted, listed, List.length_set]

/-- A branch above a child with one entry replaced. -/
theorem Shaped.rewritten_child {entry : κ × ν}
    (shaped : Shaped capacities (height + 1) (.branch capacities.branch total entries children))
    (found : children[number]? = some child) (inside : offset < child.toList.length)
    (rewritten : Rewritten capacities height child offset entry changed) :
    Rewritten capacities (height + 1) (.branch capacities.branch total entries children)
      ((inFront entries children number).length + offset) entry
      (.branch capacities.branch total entries (children.set number changed)) := by
  cases shaped with
  | branch fits separated arity counted shaped filled =>
    have member := List.mem_of_getElem? found
    have changedFilled := (shaped child member).filled_of_size_le rewritten.shaped
      (filled child member) (Nat.le_of_eq rewritten.size_eq.symm)
    have listed : weave (toLists (children.set number changed)) entries =
        (weave (toLists children) entries).set
          ((inFront entries children number).length + offset) entry := by
      rw [weave_set arity found, weave_at arity found, set_middle _ _ _ _ _ inside,
        rewritten.listed]
    refine ⟨.branch fits separated (by simpa using arity) ?_
      (forall_mem_set shaped rewritten.shaped) (forall_mem_set filled changedFilled), rfl, listed,
      by simp only [outline, outlines_set found rewritten.outline_eq]⟩
    rw [counted, listed, List.length_set]

end Rewriting

variable {capacities : Capacities} {height offset : Nat} {node : Node κ ν} {trail : Trail κ ν}
variable {place : Place κ ν}

/-- A change along the numbers of a place puts the changed value at the offset of the
place, and answers the value it replaced. -/
theorem changeValueAlong_rewritten (change : ν → ν) (leads : Trail.Leads node trail offset)
    (shaped : Shaped capacities height node) (taken : Place.ofTrail trail = some place) :
    ∃ key old changed,
      node.toList[offset]? = some (key, old) ∧
      node.changeValueAlong change place.slot place.numbers = .ok (old, changed) ∧
      Rewritten capacities height node offset (key, change old) changed := by
  induction leads generalizing height place with
  | @leaf capacity total slot entries inside =>
    cases shaped with
    | leaf fits counted =>
      obtain ⟨key, old, present⟩ : ∃ key old, entries[slot]? = some (key, old) :=
        ⟨_, _, List.getElem?_eq_getElem inside⟩
      cases taken
      exact ⟨key, old, _, present,
        by simp only [changeValueAlong, changeValue, Node.entries, present, withEntries],
        (Shaped.leaf fits counted).rewritten_leaf present _⟩
  | @separator capacity total slot entries children child found inside =>
    have whole := shaped
    cases shaped with
    | branch fits separated arity counted shaped filled =>
      obtain ⟨key, old, present⟩ : ∃ key old, entries[slot]? = some (key, old) :=
        ⟨_, _, List.getElem?_eq_getElem inside⟩
      have there := weave_getElem?_separator arity found inside
      rw [← List.getElem?_eq_getElem inside, present] at there
      cases taken
      exact ⟨key, old, _, there,
        by simp only [changeValueAlong, changeValue, Node.entries, present, withEntries],
        whole.rewritten_separator found present _⟩
  | @child capacity total number offset entries children child rest found lower
      inductionHypothesis =>
    have whole := shaped
    cases shaped with
    | branch fits separated arity counted shaped filled =>
      have childShaped := shaped child (List.mem_of_getElem? found)
      have within := lower.offset_lt childShaped
      obtain ⟨below, belowTaken, _⟩ := lower.place
      obtain ⟨key, old, changed, present, run, rewritten⟩ :=
        inductionHypothesis childShaped belowTaken
      obtain rfl : { below with numbers := number :: below.numbers } = place :=
        Option.some.inj ((Place.ofTrail_cons _ belowTaken).symm.trans taken)
      refine ⟨key, old, _, (weave_getElem?_child arity found within).trans present, ?_,
        whole.rewritten_child found within rewritten⟩
      simp [changeValueAlong, childToChange, found, run, withChild, withChildren, Node.children]

/-- A change that was carried out was made at an entry. -/
theorem follow_of_changeValueAlong {change : ν → ν} {slot : Nat} {numbers : List Nat}
    {old : ν} {changed : Node κ ν}
    (run : node.changeValueAlong change slot numbers = .ok (old, changed)) :
    ∃ trail, node.follow slot numbers = .ok trail := by
  induction numbers generalizing node old changed with
  | nil =>
    cases present : node.entries[slot]? with
    | none => simp [changeValueAlong, changeValue, present] at run
    | some entry =>
      obtain ⟨inside, _⟩ := List.getElem?_eq_some_iff.mp present
      exact ⟨[⟨node, slot⟩], by simp [follow, size, inside]⟩
  | cons number rest inductionHypothesis =>
    cases node with
    | leaf capacity total entries => simp [changeValueAlong, childToChange] at run
    | branch capacity total entries children =>
      cases found : children[number]? with
      | none => simp [changeValueAlong, childToChange, found] at run
      | some child =>
        simp only [changeValueAlong, childToChange, found, Checked.ok_bind,
          Checked.bind_eq_ok] at run
        obtain ⟨⟨old, changed⟩, run, _⟩ := run
        obtain ⟨trail, followed⟩ := inductionHypothesis run
        exact ⟨⟨.branch capacity total entries children, number⟩ :: trail,
          by simp [follow, childAt, found, followed]⟩

end Node

end CountedBTree
