import CountedBTree.Proofs.DictionaryMoves

/-!
# Dictionaries as runs on trees

Whatever a command does to a dictionary, it does to a tree as a run on trees may. So the trees
of all dictionaries in a session are among those that runs on trees lead to, and what is proved
of these goes for dictionaries.
-/

namespace CountedBTree

variable {κ ν : Type}

namespace Dictionary

variable [Ord κ] [Footprint κ] [Footprint ν] {held made : Dictionary κ ν}
variable {capacities : Capacities} {stamp : Stamp}

/-- An empty dictionary starts a run on trees. -/
theorem reached_of_empty (ran : Dictionary.empty capacities stamp = .ok made) :
    made.tree.Reached capacities := by
  obtain ⟨tree, fresh, ⟨⟩⟩ := Checked.bind_eq_ok.mp ran
  exact .made fresh

/-- A dictionary built from distinct keys starts a run on trees and goes on with it. -/
theorem reached_of_ofDistinct {pairs : List (κ × ν)}
    (ran : (Dictionary.ofDistinct pairs stamp).outcome = .ok made) :
    made.tree.Reached Capacities.standard := by
  simp only [ofDistinct, Traced.bind_eq_ok, Traced.outcome_lift] at ran
  obtain ⟨start, fresh, tree, ran, ⟨⟩⟩ := ran
  exact (Tree.Reached.made fresh).insertAll ran

/-- A change of the value of a key goes on with a run on trees. -/
theorem reached_of_change (reached : held.tree.Reached capacities) {key : κ} {change : ν → ν}
    {old : ν} (ran : held.change key change stamp = .ok (some (old, made))) :
    made.tree.Reached capacities := by
  obtain ⟨changed, looked, ran⟩ := Checked.bind_eq_ok.mp ran
  rcases changed with _ | ⟨_, tree⟩
  · simp at ran
  · obtain ⟨⟩ := ran
    exact reached.acted (.changeFirst key change) (Traced.bind_eq_ok.mpr ⟨_, looked, rfl⟩)

/-- A value set at a bookmark goes on with a run on trees. -/
theorem reached_of_setValueAt (reached : held.tree.Reached capacities)
    {bookmark : Bookmark κ ν} {value old : ν}
    (ran : held.setValueAt bookmark value stamp = .ok (old, made)) :
    made.tree.Reached capacities := by
  obtain ⟨place, _, ran⟩ := Checked.bind_eq_ok.mp ran
  obtain ⟨⟨_, tree⟩, changed, ⟨⟩⟩ := Checked.bind_eq_ok.mp ran
  exact reached.acted (.setValue place value) (Traced.bind_eq_ok.mpr ⟨_, changed, rfl⟩)

/-- Clearing goes on with a run on trees. -/
theorem reached_of_cleared (reached : held.tree.Reached capacities)
    (ran : held.cleared stamp = .ok made) : made.tree.Reached capacities := by
  obtain ⟨tree, fresh, ⟨⟩⟩ := Checked.bind_eq_ok.mp ran
  exact reached.acted .emptyLike fresh

/-- Mapping a key goes on with a run on trees. -/
theorem reached_of_insert (reached : held.tree.Reached capacities) {key : κ} {value : ν}
    {old : Option ν} (ran : (held.insert key value stamp).outcome = .ok (old, made)) :
    made.tree.Reached capacities := by
  obtain ⟨⟨_, tree⟩, updated, ⟨⟩⟩ := Traced.bind_eq_ok.mp ran
  exact reached.acted (.updateFirstOrInsert key value) (Traced.bind_eq_ok.mpr ⟨_, updated, rfl⟩)

/-- Mapping several keys goes on with a run on trees. -/
theorem reached_of_insertAll (reached : held.tree.Reached capacities) {pairs : List (κ × ν)}
    {count replaced : Nat}
    (ran : (pairs.foldlM (insertCounting stamp) (count, held)).outcome = .ok (replaced, made)) :
    made.tree.Reached capacities := by
  induction pairs generalizing held count with
  | nil =>
    obtain ⟨_, rfl⟩ := Prod.mk.inj (Except.ok.inj ran)
    exact reached
  | cons pair pairs inductionHypothesis =>
    obtain ⟨_, counted, ran⟩ := Traced.bind_eq_ok.mp ran
    obtain ⟨⟨old, current⟩, inserted, ⟨⟩⟩ := Traced.bind_eq_ok.mp counted
    exact inductionHypothesis (reached_of_insert reached inserted) ran

/-- A dictionary built from a list starts a run on trees and goes on with it. -/
theorem reached_of_ofList {pairs : List (κ × ν)}
    (ran : (Dictionary.ofList pairs stamp).outcome = .ok made) :
    made.tree.Reached Capacities.standard := by
  simp only [ofList, Traced.bind_eq_ok, Traced.outcome_lift] at ran
  obtain ⟨start, fresh, ⟨_, built⟩, ran, ⟨⟩⟩ := ran
  exact reached_of_insertAll (reached_of_empty fresh) ran

end Dictionary

namespace DictionarySession

/-- The trees of all dictionaries are trees that runs lead to. -/
def Grown [Ord κ] [Footprint κ] [Footprint ν] (session : DictionarySession κ ν) : Prop :=
  ∀ {name held}, session.dictionaries.get? name = some held →
    held.tree.Reached held.tree.capacities

variable [Ord κ] [Footprint κ] [Footprint ν] [Std.TransOrd κ]
variable {session after : DictionarySession κ ν}

/-- A dictionary may be given a name if its tree is one that runs lead to. -/
theorem Grown.set (grown : session.Grown) {made : Dictionary κ ν} {capacities : Capacities}
    (reached : made.tree.Reached capacities) (name : String)
    (stored : after.dictionaries = session.dictionaries.set name made) : after.Grown := by
  intro other held read
  rw [stored] at read
  rcases Registers.get_set_cases read with ⟨_, rfl⟩ | ⟨_, before⟩
  · obtain ⟨_, rfl⟩ := reached.sound
    exact reached
  · exact grown before

variable [SampleKey κ] [SampleValue ν] {command : DictionaryCommand κ ν} {reply : Reply κ ν}

/-- Every command writes to dictionaries as a run on trees may. -/
theorem Effect.grown (effect : Effect session command reply after) (grown : session.Grown) :
    after.Grown := by
  cases effect with
  | create ran => exact grown.set (Dictionary.reached_of_empty ran) _ rfl
  | build ran => exact grown.set (Dictionary.reached_of_ofList ran) _ rfl
  | buildDistinct ran => exact grown.set (Dictionary.reached_of_ofDistinct ran) _ rfl
  | buildSample sampled ran => exact grown.set (Dictionary.reached_of_ofDistinct ran) _ rfl
  | copy present => exact grown.set (grown present) _ rfl
  | insert present ran =>
    exact grown.set (Dictionary.reached_of_insert (grown present) ran) _ rfl
  | extend present ran =>
    exact grown.set (Dictionary.reached_of_insertAll (grown present) ran) _ rfl
  | fill present sampled ran =>
    exact grown.set (Dictionary.reached_of_insertAll (grown present) ran) _ rfl
  | changeFound present ran =>
    exact grown.set (Dictionary.reached_of_change (grown present) ran) _ rfl
  | setValueAt marked present ran =>
    exact grown.set (Dictionary.reached_of_setValueAt (grown present) ran) _ rfl
  | clear present ran =>
    exact grown.set (Dictionary.reached_of_cleared (grown present) ran) _ rfl
  | _ => exact grown

variable [BEq κ] [BEq ν] [Listed κ] [Listed ν]

/-- In every session that a run leads to, the trees of dictionaries are trees that runs on
trees lead to. -/
theorem Reached.grown (reached : session.Reached) : session.Grown := by
  induction reached with
  | start =>
    intro name held present
    simp [empty, Registers.empty, Registers.get?] at present
  | move before moves inductionHypothesis =>
    obtain ⟨stamp, _, ran⟩ := moves
    exact (step_effect ran).grown inductionHypothesis

end DictionarySession

end CountedBTree
