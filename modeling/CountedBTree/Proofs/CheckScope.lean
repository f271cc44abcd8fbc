import CountedBTree.Proofs.NodeCheck
import CountedBTree.Proofs.TreeRuns

/-!
# What the checks establish

Counts and depths follow for the whole of a subtree that passes the full check, level by
level. Order follows for two levels at a time only, because a separator is compared with the
entries of the children themselves and not with what those children have below them. A
subtree of up to two levels that passes is therefore in order. From three levels on an entry
may lie beyond a separator of its grandparent; the subtree is in order exactly when it is
fenced.
-/

namespace CountedBTree

variable {κ ν : Type}

/-- What a woven run holds comes from the separators or from one of the blocks. -/
theorem mem_weave {α : Type} {blocks : List (List α)} {separators : List α} {element : α}
    (member : element ∈ weave blocks separators) :
    element ∈ separators ∨ ∃ block ∈ blocks, element ∈ block := by
  induction blocks generalizing separators with
  | nil => simp [weave] at member
  | cons block blocks inductionHypothesis =>
    cases separators with
    | nil =>
      rcases List.mem_append.mp member with inBlock | further
      · exact .inr ⟨block, List.mem_cons_self, inBlock⟩
      · rcases inductionHypothesis further with none | ⟨other, among, inOther⟩
        · contradiction
        · exact .inr ⟨other, List.mem_cons_of_mem _ among, inOther⟩
    | cons separator separators =>
      rcases List.mem_append.mp member with inBlock | further
      · exact .inr ⟨block, List.mem_cons_self, inBlock⟩
      · rcases List.mem_cons.mp further with rfl | further
        · exact .inl List.mem_cons_self
        · rcases inductionHypothesis further with separating | ⟨other, among, inOther⟩
          · exact .inl (List.mem_cons_of_mem _ separating)
          · exact .inr ⟨other, List.mem_cons_of_mem _ among, inOther⟩

/-- What ascending nodes hold, woven with ascending separators, ascends when nothing a node
holds lies beyond the separators beside it.

The induction is on the nodes. A later node is not compared with the first separator; it
starts behind a separator of its own, which the first one does not exceed. -/
theorem ascending_weave [Ord κ] [Std.TransOrd κ] {held : Node κ ν → List (κ × ν)}
    {nodes : List (Node κ ν)} {separators : List (κ × ν)}
    (arity : nodes.length = separators.length + 1) (ascending : Ascending separators)
    (each : ∀ node ∈ nodes, Ascending (held node))
    (above : ∀ (number : Nat) (separator : κ × ν) (node : Node κ ν),
      separators[number]? = some separator → nodes[number + 1]? = some node →
      ∀ entry ∈ held node, (compare separator.1 entry.1).isLE = true)
    (below : ∀ (number : Nat) (separator : κ × ν) (node : Node κ ν),
      separators[number]? = some separator → nodes[number]? = some node →
      ∀ entry ∈ held node, (compare entry.1 separator.1).isLE = true) :
    Ascending (weave (nodes.map held) separators) := by
  induction nodes generalizing separators with
  | nil => simp at arity
  | cons node nodes inductionHypothesis =>
    have first : Ascending (held node) := each node List.mem_cons_self
    cases separators with
    | nil =>
      have none : nodes = [] := by simpa using arity
      simpa [none, weave] using first
    | cons separator separators =>
      have paired : nodes.length = separators.length + 1 := by simpa using arity
      have rest : Ascending (weave (nodes.map held) separators) := by
        apply inductionHypothesis paired (List.pairwise_cons.mp ascending).2
        · exact fun other among => each other (List.mem_cons_of_mem _ among)
        · exact fun number => above (number + 1)
        · exact fun number => below (number + 1)
      have beyond : ∀ entry ∈ weave (nodes.map held) separators,
          (compare separator.1 entry.1).isLE = true := by
        intro entry member
        rcases mem_weave member with separating | ⟨block, heldBy, inBlock⟩
        · exact (List.pairwise_cons.mp ascending).1 entry separating
        · obtain ⟨other, among, rfl⟩ := List.mem_map.mp heldBy
          obtain ⟨number, found⟩ := List.mem_iff_getElem?.mp among
          cases number with
          | zero => exact above 0 separator other rfl found entry inBlock
          | succ number =>
            obtain ⟨inside, _⟩ := List.getElem?_eq_some_iff.mp found
            have present : separators[number]? = some separators[number] :=
              List.getElem?_eq_getElem (by omega)
            have ordered := (List.pairwise_cons.mp ascending).1 separators[number]
              (List.getElem_mem _)
            have further := above (number + 1) separators[number] other present found entry inBlock
            exact Std.TransCmp.isLE_trans ordered further
      refine List.pairwise_append.mpr ⟨first, List.pairwise_cons.mpr ⟨beyond, rest⟩, ?_⟩
      intro earlier early later late
      have ordered := below 0 separator node rfl rfl earlier early
      rcases List.mem_cons.mp late with rfl | late
      · exact ordered
      · exact Std.TransCmp.isLE_trans ordered (beyond later late)

namespace Node

/-- The nodes of a subtree with their depths below its topmost node. -/
inductive AtLevel (node : Node κ ν) : Nat → Node κ ν → Prop where
  | top : AtLevel node 0 node
  | child {level : Nat} {parent child : Node κ ν} (above : AtLevel node level parent)
      (member : child ∈ parent.children) : AtLevel node (level + 1) child

/-- The entries of the node itself and those of its children themselves, in order. -/
def topEntries : Node κ ν → List (κ × ν)
  | leaf _ _ entries => entries
  | branch _ _ entries children => weave (children.map Node.entries) entries

variable [Ord κ]

namespace Lined

variable {passed : Option κ} {ahead : List κ} {children : List (Node κ ν)} {number : Nat}
variable {separator : κ} {child : Node κ ν}

/-- A child does not begin below the separator before it. -/
theorem notBelow (lined : Lined passed ahead children) (before : ahead[number]? = some separator)
    (found : children[number + 1]? = some child) : child.notBelow (some separator) = true := by
  induction children generalizing passed ahead number with
  | nil => simp at found
  | cons first rest inductionHypothesis =>
    obtain ⟨_, _, _, lined⟩ := lined
    cases ahead with
    | nil => simp at before
    | cons bound ahead =>
      cases number with
      | zero =>
        obtain rfl : bound = separator := by simpa using before
        cases rest with
        | nil => simp at found
        | cons second rest =>
          obtain rfl : second = child := by simpa using found
          exact lined.2.1
      | succ number => exact inductionHypothesis lined (by simpa using before) found

/-- A child does not end above the separator behind it. -/
theorem notAbove (lined : Lined passed ahead children) (behind : ahead[number]? = some separator)
    (found : children[number]? = some child) : child.notAbove (some separator) = true := by
  induction children generalizing passed ahead number with
  | nil => simp at found
  | cons first rest inductionHypothesis =>
    obtain ⟨_, _, within, lined⟩ := lined
    cases ahead with
    | nil => simp at behind
    | cons bound ahead =>
      cases number with
      | zero =>
        obtain rfl : bound = separator := by simpa using behind
        obtain rfl : first = child := by simpa using found
        exact within
      | succ number =>
        exact inductionHypothesis lined (by simpa using behind) (by simpa using found)

end Lined

section Ends

variable [Std.TransOrd κ] {node : Node κ ν} {separator : κ}

/-- The first key of an ascending node bounds its other keys from below. -/
theorem separator_le_of_notBelow (ascending : Ascending node.entries)
    (notBelow : node.notBelow (some separator) = true) :
    ∀ entry ∈ node.entries, (compare separator entry.1).isLE = true := by
  intro entry member
  cases first : node.entries with
  | nil => simp [first] at member
  | cons least others =>
    have bounded : (compare separator least.1).isLE = true := by
      have reversed : (compare least.1 separator).isGE = true := by
        simpa [Node.notBelow, first] using notBelow
      exact Std.OrientedCmp.isGE_iff_isLE.mp reversed
    rw [first] at ascending member
    rcases List.mem_cons.mp member with rfl | later
    · exact bounded
    · exact Std.TransCmp.isLE_trans bounded ((List.pairwise_cons.mp ascending).1 entry later)

/-- The last key of an ascending node bounds its other keys from above. -/
theorem le_separator_of_notAbove (ascending : Ascending node.entries)
    (notAbove : node.notAbove (some separator) = true) :
    ∀ entry ∈ node.entries, (compare entry.1 separator).isLE = true := by
  intro entry member
  cases last : node.entries.getLast? with
  | none => simp [List.getLast?_eq_none_iff.mp last] at member
  | some greatest =>
    have bounded : (compare greatest.1 separator).isLE = true := by
      simpa [Node.notAbove, last] using notAbove
    obtain ⟨others, whole⟩ := List.getLast?_eq_some_iff.mp last
    rw [whole] at ascending member
    rcases List.mem_append.mp member with earlier | final
    · have ordered := (List.pairwise_append.mp ascending).2.2 entry earlier greatest (by simp)
      exact Std.TransCmp.isLE_trans ordered bounded
    · obtain rfl : entry = greatest := by simpa using final
      exact bounded

end Ends

namespace Inspected

variable {node lower : Node κ ν} {depth level : Nat}

/-- The node itself is settled. -/
theorem settled (inspected : Inspected depth node) : node.Settled := by
  cases inspected with
  | leaf settled => exact settled
  | branch settled => exact settled

/-- The leaves are the nodes without a level below them. -/
theorem isLeaf_iff (inspected : Inspected depth node) : node.isLeaf = true ↔ depth = 0 := by
  cases inspected with
  | leaf => simp [isLeaf]
  | branch => simp [isLeaf]

/-- Every node below is inspected as well, at the depth that remains from its level on. -/
theorem atLevel (inspected : Inspected depth node) (reached : node.AtLevel level lower) :
    ∃ rest, level + rest = depth ∧ Inspected rest lower := by
  induction reached with
  | top => exact ⟨depth, Nat.zero_add depth, inspected⟩
  | child above member inductionHypothesis =>
    obtain ⟨rest, same, parentInspected⟩ := inductionHypothesis
    cases parentInspected with
    | leaf => contradiction
    | branch settled separated lined children =>
      exact ⟨_, by omega, children _ member⟩

/-- The stored count is the number of entries in the subtree. -/
theorem total_eq (inspected : Inspected depth node) : node.total = node.toList.length := by
  induction inspected with
  | leaf settled => exact settled.counted
  | branch settled separated lined inspected inductionHypothesis =>
    rw [toList, length_weave_toLists settled.children_length inductionHypothesis]
    exact settled.counted

/-- Up to two levels, the node and its children hold all there is. -/
theorem toList_eq_topEntries (inspected : Inspected depth node) (shallow : depth ≤ 1) :
    node.toList = node.topEntries := by
  cases inspected with
  | leaf => rfl
  | @branch depth capacity total entries children settled separated lined inspected =>
    have leaves : children.map toList = children.map Node.entries := by
      refine List.map_congr_left ?_
      intro child member
      obtain rfl : depth = 0 := by omega
      cases inspected child member with
      | leaf => rfl
    rw [toList, topEntries, toLists_eq_map, leaves]

/-- An inspected subtree is fenced when it is in order. -/
theorem fenced_of_ascending (inspected : Inspected depth node)
    (ascending : Ascending node.toList) : node.Fenced := by
  induction inspected with
  | leaf => exact .leaf ascending
  | branch settled separated lined inspected inductionHypothesis =>
    exact .of_ascending settled.children_length ascending inductionHypothesis

variable [Std.TransOrd κ]

/-- The entries of the node and of its children ascend together. -/
theorem topEntries_ascending (inspected : Inspected depth node) :
    Ascending node.topEntries := by
  cases inspected with
  | leaf settled => exact settled.ascending
  | @branch depth capacity total entries children settled separated lined inspected =>
    refine ascending_weave settled.children_length settled.ascending ?_ ?_ ?_
    · intro child member
      exact (inspected child member).settled.ascending
    · intro number separator child before found
      have ascending := (inspected child (List.mem_of_getElem? found)).settled.ascending
      exact separator_le_of_notBelow ascending (lined.notBelow (by simp [before]) found)
    · intro number separator child behind found
      have ascending := (inspected child (List.mem_of_getElem? found)).settled.ascending
      exact le_separator_of_notAbove ascending (lined.notAbove (by simp [behind]) found)

/-- An inspected subtree is in order when it is fenced. -/
theorem ascending_of_fenced (inspected : Inspected depth node) (fenced : node.Fenced) :
    Ascending node.toList := by
  induction inspected with
  | leaf settled => exact settled.ascending
  | branch settled separated lined inspected inductionHypothesis =>
    cases fenced with
    | branch ascending above below fenced =>
      rw [toList, toLists_eq_map]
      apply ascending_weave settled.children_length ascending
      · intro child member
        exact inductionHypothesis child member (fenced child member)
      · exact above
      · exact below

end Inspected

variable [Std.TransOrd κ]

/-- A subtree that passes the full check stores the real number of entries at every node and
has its leaves at the depth answered, and nowhere else. Its entries ascend at every node
together with those of the node's children, hence altogether as long as there are no more
than two levels. From three levels on they ascend exactly when the subtree is fenced. -/
theorem check_establishes {node : Node κ ν} {depth : Nat} (checked : node.check = .ok depth) :
    (∀ (level : Nat) (lower : Node κ ν), node.AtLevel level lower →
      lower.total = lower.toList.length ∧ (lower.isLeaf = true ↔ level = depth) ∧
        Ascending lower.topEntries) ∧
    (depth ≤ 1 → Ascending node.toList) ∧
    (Ascending node.toList ↔ node.Fenced) := by
  have inspected := (check_iff node depth).mp checked
  refine ⟨?_, ?_, inspected.fenced_of_ascending, inspected.ascending_of_fenced⟩
  · intro level lower reached
    obtain ⟨rest, same, lowerInspected⟩ := inspected.atLevel reached
    refine ⟨lowerInspected.total_eq, ?_, lowerInspected.topEntries_ascending⟩
    rw [lowerInspected.isLeaf_iff]
    omega
  · intro shallow
    rw [inspected.toList_eq_topEntries shallow]
    exact inspected.topEntries_ascending

/-- The tree of three levels passes with the depth of its leaves. -/
theorem check_establishes_spread :
    Tree.spread.root.check = .ok 2 ∧
      (∀ (level : Nat) (lower : Node Nat Nat), Tree.spread.root.AtLevel level lower →
        lower.total = lower.toList.length ∧ (lower.isLeaf = true ↔ level = 2) ∧
          Ascending lower.topEntries) ∧
      (Ascending Tree.spread.root.toList ↔ Tree.spread.root.Fenced) := by
  have checked : Tree.spread.root.check = .ok 2 := rfl
  obtain ⟨below, _, order⟩ := check_establishes checked
  exact ⟨checked, below, order⟩

/-- Two pairs of leaves, joined twice. Every node lies between the separators beside it, but
5 lies to the left of the separator 3 at the root. -/
def crossed : Node Nat Nat :=
  .branch 2 7 [(3, 0)]
    [.branch 2 3 [(2, 0)] [.leaf 2 1 [(1, 0)], .leaf 2 1 [(5, 0)]],
      .branch 2 3 [(4, 0)] [.leaf 2 1 [(3, 0)], .leaf 2 1 [(6, 0)]]]

/-- Joining nodes leads to a subtree that passes the full check out of order. -/
theorem crossed_passes :
    (do
      let low ← join (.leaf 2 1 [(1, 0)]) (2, 0) (.leaf 2 1 [(5, 0)]) 2
      let high ← join (.leaf 2 1 [(3, 0)]) (4, 0) (.leaf 2 1 [(6, 0)]) 2
      join low (3, 0) high 2) = .ok crossed ∧
    crossed.check = .ok 2 ∧ ¬ Ascending crossed.toList := by
  refine ⟨rfl, rfl, ?_⟩
  rw [← ascending_iff]
  decide

end Node

end CountedBTree
