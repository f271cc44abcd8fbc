import CountedBTree.Proofs.TreeReading
import CountedBTree.Proofs.TreeRuns

/-!
# Occupancy and height

Every node below the root is at least half full, and a branch at the root has at least one
entry. That bounds the height by the logarithm of the size. The count to follow is that of
the gaps, in front of the entries, between them and behind them, which are one more than the
entries. The gaps of a branch are those of its children taken together, so a level more
multiplies them by the number of children: by half the capacity and one at least, by the
capacity and one at most. The root alone may have as few as two children.
-/

namespace CountedBTree

variable {κ ν : Type}

/-- The fewest gaps a filled subtree can have. -/
def Capacities.fewestGaps (capacities : Capacities) (height : Nat) : Nat :=
  (capacities.branch / 2 + 1) ^ height * (capacities.leaf / 2 + 1)

/-- The most gaps a subtree can have. -/
def Capacities.mostGaps (capacities : Capacities) (height : Nat) : Nat :=
  (capacities.branch + 1) ^ height * (capacities.leaf + 1)

namespace Node

/-- The first node is below the second one. -/
inductive Below : Node κ ν → Node κ ν → Prop where
  | child {child node : Node κ ν} (member : child ∈ node.children) : Below child node
  | deeper {lower child node : Node κ ν} (member : child ∈ node.children)
      (below : Below lower child) : Below lower node

variable {capacities : Capacities} {height : Nat} {node lower : Node κ ν}

/-- A node below one in shape is filled and in shape. -/
theorem Shaped.of_below (shaped : Shaped capacities height node) (below : Below lower node) :
    lower.Filled ∧ ∃ level < height, Shaped capacities level lower := by
  induction below generalizing height with
  | child member =>
    cases shaped with
    | leaf => exact absurd member List.not_mem_nil
    | branch fits separated arity counted shaped filled =>
      exact ⟨filled _ member, _, Nat.lt_succ_self _, shaped _ member⟩
  | deeper member below inductionHypothesis =>
    cases shaped with
    | leaf => exact absurd member List.not_mem_nil
    | branch fits separated arity counted shaped filled =>
      obtain ⟨occupied, level, within, lowerShaped⟩ := inductionHypothesis (shaped _ member)
      exact ⟨occupied, level, Nat.lt_succ_of_lt within, lowerShaped⟩

/-- A node in shape has the capacity of its kind. -/
theorem Shaped.capacity_eq (shaped : Shaped capacities height node) :
    node.capacity = if node.isLeaf then capacities.leaf else capacities.branch := by
  cases shaped with
  | leaf => rfl
  | branch => rfl

/-- A branch in shape is not empty. -/
theorem Shaped.size_pos_of_branch (shaped : Shaped capacities height node)
    (branching : node.isLeaf = false) : 0 < node.size := by
  cases shaped with
  | leaf => contradiction
  | branch fits separated => exact separated

/-- The gaps of a branch are those of its children taken together. -/
theorem gaps_eq {entries : List (κ × ν)} {children : List (Node κ ν)}
    (arity : children.length = entries.length + 1) :
    (weave (toLists children) entries).length + 1 =
      (children.map (fun child => child.toList.length + 1)).sum := by
  have paired : (toLists children).length = entries.length + 1 := by
    simpa [toLists_eq_map] using arity
  rw [length_weave _ _ paired, List.sum_map_add, toLists_eq_map, List.map_map]
  simp only [List.map_const', List.sum_replicate, smul_eq_mul, mul_one, Function.comp_def]
  omega

section Children

variable {entries : List (κ × ν)} {children : List (Node κ ν)} {bound : Nat}

/-- Children with a number of gaps each have that many times their number together. -/
theorem le_gaps (arity : children.length = entries.length + 1)
    (atLeast : ∀ child ∈ children, bound ≤ child.toList.length + 1) :
    (entries.length + 1) * bound ≤ (weave (toLists children) entries).length + 1 := by
  rw [gaps_eq arity, ← arity]
  have summed := List.card_nsmul_le_sum (children.map (fun child => child.toList.length + 1)) bound
    (by simpa using atLeast)
  rwa [List.length_map, smul_eq_mul] at summed

/-- Children with at most so many gaps each have at most that many times their number
together. -/
theorem gaps_le (arity : children.length = entries.length + 1)
    (atMost : ∀ child ∈ children, child.toList.length + 1 ≤ bound) :
    (weave (toLists children) entries).length + 1 ≤ (entries.length + 1) * bound := by
  rw [gaps_eq arity, ← arity]
  have summed := List.sum_le_card_nsmul (children.map (fun child => child.toList.length + 1)) bound
    (by simpa using atMost)
  rwa [List.length_map, smul_eq_mul] at summed

end Children

/-- A filled subtree has no fewer gaps than the nodes in it have to leave. -/
theorem Shaped.fewestGaps_le (shaped : Shaped capacities height node) (filled : node.Filled) :
    capacities.fewestGaps height ≤ node.toList.length + 1 := by
  induction shaped with
  | @leaf total entries fits counted =>
    have half : capacities.leaf / 2 ≤ entries.length := filled.2
    calc capacities.fewestGaps 0
        = capacities.leaf / 2 + 1 := by simp [Capacities.fewestGaps]
      _ ≤ entries.length + 1 := Nat.succ_le_succ half
  | @branch height total entries children fits separated arity counted shaped childrenFilled
      inductionHypothesis =>
    have half : capacities.branch / 2 ≤ entries.length := filled.2
    have each : ∀ child ∈ children, capacities.fewestGaps height ≤ child.toList.length + 1 :=
      fun child member => inductionHypothesis child member (childrenFilled child member)
    calc capacities.fewestGaps (height + 1)
        = (capacities.branch / 2 + 1) * capacities.fewestGaps height := by
          simp only [Capacities.fewestGaps, pow_succ']
          ring
      _ ≤ (entries.length + 1) * capacities.fewestGaps height :=
          Nat.mul_le_mul_right _ (Nat.succ_le_succ half)
      _ ≤ (weave (toLists children) entries).length + 1 := le_gaps arity each

/-- A subtree has no more gaps than the nodes in it have room for. -/
theorem Shaped.le_mostGaps (shaped : Shaped capacities height node) :
    node.toList.length + 1 ≤ capacities.mostGaps height := by
  induction shaped with
  | @leaf total entries fits counted =>
    calc entries.length + 1
        ≤ capacities.leaf + 1 := Nat.succ_le_succ fits
      _ = capacities.mostGaps 0 := by simp [Capacities.mostGaps]
  | @branch height total entries children fits separated arity counted shaped filled
      inductionHypothesis =>
    calc (weave (toLists children) entries).length + 1
        ≤ (entries.length + 1) * capacities.mostGaps height := gaps_le arity inductionHypothesis
      _ ≤ (capacities.branch + 1) * capacities.mostGaps height :=
          Nat.mul_le_mul_right _ (Nat.succ_le_succ fits)
      _ = capacities.mostGaps (height + 1) := by
          simp only [Capacities.mostGaps, pow_succ']
          ring

/-- A root over other levels has at least two filled subtrees. -/
theorem Shaped.fewestGaps_le_root (shaped : Shaped capacities (height + 1) node) :
    2 * capacities.fewestGaps height ≤ node.toList.length + 1 := by
  cases shaped with
  | @branch _ total entries children fits separated arity counted shaped filled =>
    calc 2 * capacities.fewestGaps height
        ≤ (entries.length + 1) * capacities.fewestGaps height :=
          Nat.mul_le_mul_right _ (Nat.succ_le_succ separated)
      _ ≤ (weave (toLists children) entries).length + 1 :=
          le_gaps arity (fun child member => (shaped child member).fewestGaps_le
            (filled child member))

end Node

namespace Tree

variable [Ord κ] [Footprint κ] [Footprint ν] [Std.TransOrd κ] {tree : Tree κ ν}
variable {leaf branch : Nat}

/-- In every tree that a run leads to, the nodes below the root are at least half full, and a
branch at the root is not empty. A tree of two levels and more therefore has a size between
two exponentials of its height. -/
theorem height_isLogarithmic (reached : tree.Reached ⟨leaf, branch⟩) :
    (∀ node : Node κ ν, node.Below tree.root →
      node.capacity = (if node.isLeaf then leaf else branch) ∧ node.capacity / 2 ≤ node.size) ∧
    (tree.root.isLeaf = false → 1 ≤ tree.root.size) ∧
    tree.size = tree.toList.length ∧
    ∃ height, tree.height = .ok height ∧ (2 ≤ height →
      2 * (branch / 2 + 1) ^ (height - 2) * (leaf / 2 + 1) ≤ tree.size + 1 ∧
        tree.size + 1 ≤ (branch + 1) ^ (height - 1) * (leaf + 1)) := by
  obtain ⟨sound, same⟩ := reached.sound
  obtain ⟨height, shaped⟩ := sound.shaped
  rw [same] at shaped
  refine ⟨?_, ?_, size_eq sound, height + 1, shaped.height_eq, ?_⟩
  · intro node below
    obtain ⟨filled, level, _, nodeShaped⟩ := shaped.of_below below
    exact ⟨nodeShaped.capacity_eq, filled.2⟩
  · exact shaped.size_pos_of_branch
  · intro levels
    obtain ⟨lower, rfl⟩ : ∃ lower, height = lower + 1 := ⟨height - 1, by omega⟩
    rw [size_eq sound, mul_assoc]
    exact ⟨shaped.fewestGaps_le_root, shaped.le_mostGaps⟩

/-- The bounds at three levels in nodes for two entries each. -/
theorem height_isLogarithmic_spread :
    spread.Reached ⟨2, 2⟩ ∧ spread.height = .ok 3 ∧ spread.size = 8 ∧
      2 * (2 / 2 + 1) ^ 1 * (2 / 2 + 1) ≤ 8 + 1 ∧ 8 + 1 ≤ (2 + 1) ^ 2 * (2 + 1) := by
  obtain ⟨_, _, _, height, levels, bounds⟩ :=
    height_isLogarithmic spread_reached
  have three : spread.height = .ok 3 := rfl
  obtain rfl : 3 = height := Except.ok.inj (three.symm.trans levels)
  exact ⟨spread_reached, three, rfl, bounds (by decide)⟩

end Tree

end CountedBTree
