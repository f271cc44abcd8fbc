import CountedBTree.Proofs.TreeCheck
import CountedBTree.Proofs.TreeWrites

/-!
# Runs on trees

A run starts with an empty tree and goes on by writes, copies, and new empty trees with the
capacities of a tree at hand. Each action takes a sound tree to a sound tree, so by induction
every tree that a run leads to is sound. In every node of such a tree the counts are right,
the keys are fenced by the separators around them, and all checks pass, those inside an
insertion included: whatever the run does next is answered if its gate is open. The gate
looks at the number of entries that the action leaves, and of the tree at nothing but its
generation and its capacities.
-/

namespace CountedBTree

variable {κ ν : Type} [Ord κ]

/-- One step of a run, applied to a tree that the run led to. -/
inductive TreeAction (κ ν : Type) where
  | insertKey (key : κ) (value : ν)
  | insertOrUpdate (key : κ) (value : ν)
  | updateFirstOrInsert (key : κ) (value : ν)
  /-- Write to the value of the first equal key in place; without one, nothing happens. -/
  | changeFirst (key : κ) (change : ν → ν)
  | setValue (place : Place κ ν) (value : ν)
  | copy
  /-- Make an empty tree with the same capacities. -/
  | emptyLike

namespace TreeAction

variable [Footprint κ] [Footprint ν]

/-- The tree that an action gives. -/
def run (tree : Tree κ ν) : TreeAction κ ν → Traced Fault (Tree κ ν)
  | insertKey key value => tree.insertKey key value
  | insertOrUpdate key value => do
      let (_, after) ← tree.insertOrUpdate key value
      pure after
  | updateFirstOrInsert key value => do
      let (_, after) ← tree.updateFirstOrInsert key value
      pure after
  | changeFirst key change => do
      let written ← tree.changeFirst key change
      pure (written.elim tree Prod.snd)
  | setValue place value => do
      let (_, after) ← tree.setValue place value
      pure after
  | copy => pure tree
  | emptyLike => tree.emptyLike

/-- Whether an action can be asked for: a place has to lead to an entry of the tree. -/
def Suits (tree : Tree κ ν) : TreeAction κ ν → Prop
  | setValue place _ => ∃ trail, place.trail tree.root = .ok trail
  | _ => True

/-- The gate of an action, which is that of the write it makes, if it makes one. -/
def gate (tree : Tree κ ν) : TreeAction κ ν → Checked Unit
  | insertKey _ _ => tree.roomFor (tree.size + 1)
  | insertOrUpdate key value => tree.roomFor (putLast key value tree.toList).length
  | updateFirstOrInsert key value => tree.roomFor (putFirst key value tree.toList).length
  | changeFirst key _ =>
      if tree.toList.any (fun entry => (compare entry.1 key).isEq) then tree.roomFor tree.size
      else .ok ()
  | setValue _ _ => tree.roomFor tree.size
  | copy => .ok ()
  | emptyLike => .ok ()

/-- The gate of an action is shut only at a limit. -/
theorem gate_error {tree : Tree κ ν} (action : TreeAction κ ν)
    (several : 2 ≤ tree.capacities.branch) {cause : Fault}
    (shut : action.gate tree = .error cause) : cause.IsLimit := by
  cases action with
  | changeFirst key change =>
    simp only [gate] at shut
    split at shut
    · exact Capacities.roomFor_error several shut
    · contradiction
  | copy => contradiction
  | emptyLike => contradiction
  | _ => exact Capacities.roomFor_error several shut

end TreeAction

/-- The trees that runs lead to. A tree stays at hand after it was acted on, as a copy of it
would, so a run may branch. -/
inductive Tree.Reached [Footprint κ] [Footprint ν] (capacities : Capacities) :
    Tree κ ν → Prop where
  | made {tree : Tree κ ν} (fresh : Tree.empty capacities = .ok tree) : Reached capacities tree
  | acted {tree after : Tree κ ν} (before : Reached capacities tree) (action : TreeAction κ ν)
      (ran : (action.run tree).outcome = .ok after) : Reached capacities after

namespace Tree

variable [Footprint κ] [Footprint ν] {tree after : Tree κ ν} {capacities : Capacities}

/-- An action that was answered could be asked for. -/
theorem suits_of_ran (action : TreeAction κ ν) (ran : (action.run tree).outcome = .ok after) :
    action.Suits tree := by
  cases action with
  | setValue place value =>
    simp only [TreeAction.run, Traced.bind_eq_ok, Traced.outcome_lift] at ran
    obtain ⟨⟨old, written⟩, ran, _⟩ := ran
    exact trail_of_setValue ran
  | _ => trivial

/-- Inserting entries one by one goes on with a run. -/
theorem Reached.insertAll (reached : tree.Reached capacities) {pairs : List (κ × ν)}
    (ran : (tree.insertAll pairs).outcome = .ok after) : after.Reached capacities := by
  induction pairs generalizing tree with
  | nil =>
    obtain rfl : tree = after := Except.ok.inj ran
    exact reached
  | cons pair pairs inductionHypothesis =>
    obtain ⟨current, inserted, ran⟩ := Traced.bind_eq_ok.mp ran
    exact inductionHypothesis (reached.acted (.insertKey pair.1 pair.2) inserted) ran

variable [Std.TransOrd κ]

/-- An action that can be asked for takes a sound tree to a sound tree with the same
capacities, through its gate. -/
theorem action_admits (sound : tree.Sound) (action : TreeAction κ ν)
    (suits : action.Suits tree) :
    (action.gate tree).Admits (action.run tree).outcome
      (fun after => after.Sound ∧ after.capacities = tree.capacities) := by
  cases action with
  | insertKey key value =>
    apply (insertKey_admits sound key value).imp
    rintro after _ becomes
    exact ⟨becomes.sound, becomes.capacities_eq⟩
  | insertOrUpdate key value =>
    simp only [TreeAction.run, Traced.outcome_bind]
    apply (insertOrUpdate_admits sound key value).bind_ok
    rintro ⟨old, after⟩ ⟨_, becomes⟩
    exact ⟨after, rfl, becomes.sound, becomes.capacities_eq⟩
  | updateFirstOrInsert key value =>
    simp only [TreeAction.run, Traced.outcome_bind]
    apply (updateFirstOrInsert_admits sound key value).bind_ok
    rintro ⟨old, after⟩ ⟨_, becomes⟩
    exact ⟨after, rfl, becomes.sound, becomes.capacities_eq⟩
  | changeFirst key change =>
    simp only [TreeAction.gate, TreeAction.run, Traced.outcome_bind, sound.roomFor_size]
    cases first : tree.toList.find? (fun entry => (compare entry.1 key).isEq) with
    | some entry =>
      have present : tree.toList.any (fun entry => (compare entry.1 key).isEq) = true :=
        List.any_eq_true.mpr ⟨entry, List.mem_of_find?_eq_some first, by
          simpa using List.find?_some first⟩
      rw [if_pos present]
      apply (changeFirst_found sound change first).bind_ok
      rintro _ ⟨after, rfl, revalues⟩
      exact ⟨after, rfl, revalues.sound, revalues.capacities_eq⟩
    | none =>
      have absent : ¬ tree.toList.any (fun entry => (compare entry.1 key).isEq) = true := by
        simpa using first
      rw [if_neg absent]
      exact .of_open (by simp [changeFirst_absent sound change first]) ⟨sound, rfl⟩
  | setValue place value =>
    obtain ⟨trail, followed⟩ := suits
    obtain ⟨_, _, _, _, _, admits⟩ := setValue_admits sound followed value
    simp only [TreeAction.gate, TreeAction.run, Traced.outcome_bind, sound.roomFor_size]
    apply admits.bind_ok
    rintro ⟨old, after⟩ ⟨_, revalues⟩
    exact ⟨after, rfl, revalues.sound, revalues.capacities_eq⟩
  | copy => exact .of_open rfl ⟨sound, rfl⟩
  | emptyLike =>
    obtain ⟨fresh, made, freshSound, same, _⟩ :=
      (empty_admits sound.leafRoom sound.branchRoom).answers sound.leafFits
    exact .of_open (by simp [TreeAction.run, Tree.emptyLike, made]) ⟨freshSound, same⟩

/-- Every tree that a run leads to is sound and keeps the capacities it was made with. -/
theorem Reached.sound (reached : tree.Reached capacities) :
    tree.Sound ∧ tree.capacities = capacities := by
  induction reached with
  | made fresh =>
    obtain ⟨sound, same, _⟩ := sound_of_empty fresh
    exact ⟨sound, same⟩
  | acted before action ran inductionHypothesis =>
    obtain ⟨sound, same⟩ := inductionHypothesis
    obtain ⟨afterSound, afterSame⟩ :=
      (action_admits sound action (suits_of_ran action ran)).of_ok ran
    exact ⟨afterSound, afterSame.trans same⟩

/-- Every tree that a run leads to is sound. -/
theorem Reached.isSound (reached : tree.Reached capacities) : tree.Sound := reached.sound.1

/-- Every tree that a run leads to is in shape at every node, with its keys fenced by the
separators and its entries in order. All checks pass, and any further action is answered
exactly if its gate is open, so no check inside an insertion fails either. A gate is shut at
limits of the machine only. -/
theorem reached_inShape (reached : tree.Reached capacities) :
    (∃ height, Node.Shaped capacities height tree.root) ∧ tree.root.Fenced ∧
      Ascending tree.toList ∧ tree.check = .ok () ∧
      ∀ action : TreeAction κ ν, action.Suits tree →
        (action.gate tree).Admits (action.run tree).outcome (Tree.Reached capacities) ∧
          ∀ cause, action.gate tree = .error cause → cause.IsLimit := by
  obtain ⟨sound, same⟩ := reached.sound
  obtain ⟨height, shaped⟩ := sound.shaped
  refine ⟨⟨height, same ▸ shaped⟩, shaped.fenced sound.ascending, sound.ascending,
    sound.check_ok, ?_⟩
  intro action suits
  exact ⟨(action_admits sound action suits).imp (fun after ran _ => .acted reached action ran),
    fun cause => action.gate_error sound.branchRoom⟩

/-- Three insertions of one key, of which the last splits the root around an equal key. -/
theorem reached_inShape_duplicates :
    let tree : Tree Nat Nat :=
      ⟨.branch 2 3 [(1, 20)] [.leaf 2 1 [(1, 10)], .leaf 2 1 [(1, 30)]], ⟨2, 2⟩, 3⟩
    tree.Reached ⟨2, 2⟩ ∧ (∃ height, Node.Shaped ⟨2, 2⟩ height tree.root) ∧
      tree.root.Fenced ∧ Ascending tree.toList ∧ tree.check = .ok () ∧
      ∀ action : TreeAction Nat Nat, action.Suits tree →
        (action.gate tree).Admits (action.run tree).outcome (Tree.Reached ⟨2, 2⟩) ∧
          ∀ cause, action.gate tree = .error cause → cause.IsLimit := by
  intro tree
  have empty : Reached ⟨2, 2⟩ (⟨.leaf 2 0 [], ⟨2, 2⟩, 0⟩ : Tree Nat Nat) := .made rfl
  have one : Reached ⟨2, 2⟩ (⟨.leaf 2 1 [(1, 10)], ⟨2, 2⟩, 1⟩ : Tree Nat Nat) :=
    empty.acted (.insertKey 1 10) rfl
  have two : Reached ⟨2, 2⟩ (⟨.leaf 2 2 [(1, 10), (1, 20)], ⟨2, 2⟩, 2⟩ : Tree Nat Nat) :=
    one.acted (.insertKey 1 20) rfl
  have three : Reached ⟨2, 2⟩ tree := two.acted (.insertKey 1 30) rfl
  exact ⟨three, reached_inShape three⟩

/-- An empty tree of the smallest nodes there can be. -/
def bare : Tree Nat Nat := ⟨.leaf 2 0 [], ⟨2, 2⟩, 0⟩

theorem bare_reached : bare.Reached ⟨2, 2⟩ := .made rfl

/-- A tree of three levels in the smallest nodes there can be. One key is spread over leaves
and branches, and its last entry is a separator. -/
def spread : Tree Nat Nat :=
  ⟨.branch 2 8 [(2, 4)]
    [.branch 2 4 [(2, 0)] [.leaf 2 2 [(1, 1), (1, 5)], .leaf 2 1 [(2, 2)]],
      .branch 2 3 [(2, 7)] [.leaf 2 1 [(2, 6)], .leaf 2 1 [(3, 3)]]],
    ⟨2, 2⟩, 8⟩

theorem spread_reached : spread.Reached ⟨2, 2⟩ := by
  have inserted : (bare.insertAll
      [(2, 0), (1, 1), (2, 2), (3, 3), (2, 4), (1, 5), (2, 6), (2, 7)]).outcome =
        .ok spread := by cbv
  exact bare_reached.insertAll inserted

end Tree

end CountedBTree
