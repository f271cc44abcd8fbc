import CountedBTree.Proofs.Runs
import CountedBTree.Tree.Write

/-!
# Limits of the machine

A write to a tree whose keys are in order and whose counts are right is refused for two
reasons only. The generation may have come to the last machine word, so that the write could
not be counted. Or the root, being a leaf without room, would have to split, and no branch
of the capacity asked for fits into memory.

Both can be told beforehand, from the generation, the capacities and the number of entries
that the write leaves. A gate is a check that looks at nothing else. An operation that a gate
admits is answered, and one that it does not admit is refused for the reason the gate gives,
so a statement with a gate in it tells exactly when there is an answer. The gates of several
writes, one after the other, make up the gate of all of them.
-/

namespace CountedBTree

variable {α β κ ν : Type}

/-- The outcome is an answer as wanted where the gate is open, and the refusal of the gate
where it is not. -/
def Checked.Admits (gate : Checked Unit) (outcome : Checked α) (wanted : α → Prop) : Prop :=
  (gate = .ok () ∧ ∃ answer, outcome = .ok answer ∧ wanted answer) ∨
    ∃ cause, gate = .error cause ∧ outcome = .error cause

namespace Checked.Admits

variable {gate further : Checked Unit} {outcome : Checked α} {wanted weaker : α → Prop}
variable {final : β → Prop} {next : α → Checked β}

/-- An open gate admits what is answered. -/
theorem of_open {answer : α} (ran : outcome = .ok answer) (holds : wanted answer) :
    Checked.Admits (.ok ()) outcome wanted :=
  .inl ⟨rfl, answer, ran, holds⟩

/-- What follows from an answer may be wanted of it instead. -/
theorem imp (admits : gate.Admits outcome wanted)
    (follows : ∀ answer, outcome = .ok answer → wanted answer → weaker answer) :
    gate.Admits outcome weaker := by
  rcases admits with ⟨free, answer, ran, holds⟩ | refused
  · exact .inl ⟨free, answer, ran, follows answer ran holds⟩
  · exact .inr refused

/-- An answer that is wanted is the one that was given. -/
theorem given (admits : gate.Admits outcome wanted) :
    gate.Admits outcome (fun answer => outcome = .ok answer ∧ wanted answer) :=
  admits.imp (fun _ ran holds => ⟨ran, holds⟩)

/-- An answer that was given is one that was wanted. -/
theorem of_ok {answer : α} (admits : gate.Admits outcome wanted) (ran : outcome = .ok answer) :
    wanted answer := by
  rcases admits with ⟨_, given, answered, holds⟩ | ⟨cause, _, refused⟩
  · obtain rfl : given = answer := Except.ok.inj (answered.symm.trans ran)
    exact holds
  · rw [refused] at ran
    contradiction

/-- Through an open gate there is an answer. -/
theorem answers (admits : gate.Admits outcome wanted) (free : gate = .ok ()) :
    ∃ answer, outcome = .ok answer ∧ wanted answer := by
  rcases admits with ⟨_, answered⟩ | ⟨cause, shut, _⟩
  · exact answered
  · rw [free] at shut
    contradiction

/-- A shut gate refuses for its own reason. -/
theorem refuses {cause : Fault} (admits : gate.Admits outcome wanted)
    (shut : gate = .error cause) : outcome = .error cause := by
  rcases admits with ⟨free, _⟩ | ⟨given, refusing, refused⟩
  · rw [shut] at free
    contradiction
  · rw [refused, Except.error.inj (refusing.symm.trans shut)]

/-- A refusal is the one that the gate gives. -/
theorem gate_of_error {cause : Fault} (admits : gate.Admits outcome wanted)
    (ran : outcome = .error cause) : gate = .error cause := by
  rcases admits with ⟨_, answer, answered, _⟩ | ⟨given, shut, refused⟩
  · rw [answered] at ran
    contradiction
  · rw [shut, Except.error.inj (refused.symm.trans ran)]

/-- A step behind a gate of its own may follow. -/
theorem bind (admits : gate.Admits outcome wanted)
    (goesOn : ∀ answer, wanted answer → further.Admits (next answer) final) :
    Checked.Admits (gate >>= fun _ => further) (outcome >>= next) final := by
  rcases admits with ⟨free, answer, ran, holds⟩ | ⟨cause, shut, refused⟩
  · rw [free, ran]
    exact goesOn answer holds
  · exact .inr ⟨cause, by rw [shut]; rfl, by rw [refused]; rfl⟩

/-- A step that always answers may follow. -/
theorem bind_ok (admits : gate.Admits outcome wanted)
    (answers : ∀ answer, wanted answer → ∃ result, next answer = .ok result ∧ final result) :
    gate.Admits (outcome >>= next) final := by
  rcases admits with ⟨free, answer, ran, holds⟩ | ⟨cause, shut, refused⟩
  · obtain ⟨result, ranOn, holdsOn⟩ := answers answer holds
    exact .inl ⟨free, result, by rw [ran]; exact ranOn, holdsOn⟩
  · exact .inr ⟨cause, shut, by rw [refused]; rfl⟩

/-- If only one answer can be wanted, operations behind one gate have one outcome. -/
theorem unique {other : Checked α} (admits : gate.Admits outcome wanted)
    (alike : gate.Admits other wanted)
    (same : ∀ first second, wanted first → wanted second → first = second) :
    outcome = other := by
  rcases admits with ⟨free, answer, ran, holds⟩ | ⟨cause, shut, refused⟩
  · obtain ⟨given, answered, held⟩ := alike.answers free
    rw [ran, answered, same answer given holds held]
  · rw [refused, alike.refuses shut]

end Checked.Admits

namespace Capacities

variable (κ ν) [Footprint κ] [Footprint ν]

/-- The gate of a write to a tree of these capacities that has the given generation, if the
write leaves `count` entries. -/
def roomFor (capacities : Capacities) (generation count : Nat) : Checked Unit := do
  let _ ← checkedSum (generation + 1)
  unless count ≤ capacities.leaf do checkBranchCapacity κ ν capacities.branch

/-- The gate of several writes, one after the other, if they leave the given counts. -/
def roomAlong (capacities : Capacities) : Nat → List Nat → Checked Unit
  | _, [] => .ok ()
  | generation, count :: counts => do
      capacities.roomFor κ ν generation count
      capacities.roomAlong (generation + 1) counts

/-- The gate of making an empty tree and inserting so many entries one by one. -/
def roomToFill (capacities : Capacities) (count : Nat) : Checked Unit := do
  checkLeafCapacity κ ν capacities.leaf
  capacities.roomAlong κ ν 0 (List.range' 1 count)

end Capacities

section Open

variable [Footprint κ] [Footprint ν] {capacities : Capacities} {generation count : Nat}

/-- A gate that is shut for no cause is open. -/
theorem Checked.open_of_never_shut {gate : Checked Unit}
    (never : ∀ cause, gate ≠ .error cause) : gate = .ok () := by
  cases gate with
  | error cause => exact absurd rfl (never cause)
  | ok => rfl

/-- A gate behind another one is open only if both are. -/
theorem Checked.both_open {gate further : Checked Unit} :
    (gate >>= fun _ => further) = .ok () ↔ gate = .ok () ∧ further = .ok () := by
  cases gate <;> simp

/-- A write is let through if it can be counted, and if a leaf has room for the entries it leaves
or branches fit into memory. -/
theorem Capacities.roomFor_eq_ok : capacities.roomFor κ ν generation count = .ok () ↔
    generation + 1 < Fault.wordLimit ∧
      (count ≤ capacities.leaf ∨ checkBranchCapacity κ ν capacities.branch = .ok ()) := by
  by_cases counted : generation + 1 < Fault.wordLimit
  · by_cases fits : count ≤ capacities.leaf <;> simp [roomFor, checkedSum, counted, fits]
  · simp [roomFor, checkedSum, counted]

/-- Several writes are let through if the last of them can be counted, and if each alone leaves
no more entries than there is room for. -/
theorem Capacities.roomAlong_eq_ok {counts : List Nat} :
    capacities.roomAlong κ ν generation counts = .ok () ↔
      (counts ≠ [] → generation + counts.length < Fault.wordLimit) ∧
        ∀ count ∈ counts, count ≤ capacities.leaf ∨
          checkBranchCapacity κ ν capacities.branch = .ok () := by
  induction counts generalizing generation with
  | nil => simp [roomAlong]
  | cons count counts inductionHypothesis =>
    have last : (generation + 1 < Fault.wordLimit ∧
        (counts ≠ [] → generation + 1 + counts.length < Fault.wordLimit)) ↔
          generation + (counts.length + 1) < Fault.wordLimit := by
      cases counts with
      | nil => simp
      | cons => simp only [ne_eq, reduceCtorEq, not_false_eq_true, true_implies]; omega
    rw [roomAlong, Checked.both_open, roomFor_eq_ok, inductionHypothesis, List.length_cons,
      List.forall_mem_cons, ← last]
    simp only [ne_eq, reduceCtorEq, not_false_eq_true, true_implies]
    tauto

end Open

/-! ## What gates refuse for -/

/-- A machine has limits of two kinds: a number that is no machine word, and a node that does
not fit into memory. -/
def Fault.IsLimit (cause : Fault) : Prop := cause = .sumTooLarge ∨ cause = .capacityTooLarge

section Causes

variable {capacity count : Nat} {cause : Fault}

theorem checkedSum_error {sum : Nat} (refused : checkedSum sum = .error cause) :
    cause.IsLimit := by
  simp only [checkedSum] at refused
  split at refused
  · contradiction
  · exact .inl (Except.error.inj refused).symm

theorem checkPiece_error {bytes : Nat} (refused : checkPiece count bytes = .error cause) :
    cause.IsLimit := by
  simp only [checkPiece] at refused
  split at refused
  · contradiction
  · exact .inr (Except.error.inj refused).symm

variable [Footprint κ] [Footprint ν]

/-- A leaf with room for a split is refused only if it does not fit into memory. -/
theorem checkLeafCapacity_error (several : 2 ≤ capacity)
    (refused : checkLeafCapacity κ ν capacity = .error cause) : cause.IsLimit := by
  have enough : minCapacity ≤ capacity := several
  simp only [checkLeafCapacity, enough, ↓reduceIte] at refused
  rcases Checked.bind_eq_error.mp refused with keys | ⟨_, _, values⟩
  · exact checkPiece_error keys
  · exact checkPiece_error values

/-- A branch with room for a split is refused only at a limit. -/
theorem checkBranchCapacity_error (several : 2 ≤ capacity)
    (refused : checkBranchCapacity κ ν capacity = .error cause) : cause.IsLimit := by
  rcases Checked.bind_eq_error.mp refused with leaf | ⟨_, _, refused⟩
  · exact checkLeafCapacity_error several leaf
  rcases Checked.bind_eq_error.mp refused with sum | ⟨_, _, piece⟩
  · exact checkedSum_error sum
  · exact checkPiece_error piece

/-- Elements without bytes fit however many they are, but the children are one more than a machine
word counts. -/
example : checkLeafCapacity Unit Unit 0xffffffffffffffff = .ok () ∧
    checkBranchCapacity Unit Unit 0xffffffffffffffff = .error .sumTooLarge := by
  decide

variable {capacities : Capacities} {generation : Nat}

/-- The gate of a write is shut only at a limit. -/
theorem Capacities.roomFor_error (several : 2 ≤ capacities.branch)
    (shut : capacities.roomFor κ ν generation count = .error cause) : cause.IsLimit := by
  rcases Checked.bind_eq_error.mp shut with uncounted | ⟨_, _, shut⟩
  · exact checkedSum_error uncounted
  · split at shut
    · contradiction
    · exact checkBranchCapacity_error several shut

/-- The gate of several writes is shut only at a limit. -/
theorem Capacities.roomAlong_error {counts : List Nat} (several : 2 ≤ capacities.branch)
    (shut : capacities.roomAlong κ ν generation counts = .error cause) : cause.IsLimit := by
  induction counts generalizing generation with
  | nil => contradiction
  | cons count counts inductionHypothesis =>
    rcases Checked.bind_eq_error.mp shut with first | ⟨_, _, others⟩
    · exact roomFor_error several first
    · exact inductionHypothesis others

/-- The gate of filling an empty tree is shut only at a limit. -/
theorem Capacities.roomToFill_error (leafRoom : 2 ≤ capacities.leaf)
    (branchRoom : 2 ≤ capacities.branch)
    (shut : capacities.roomToFill κ ν count = .error cause) : cause.IsLimit := by
  rcases Checked.bind_eq_error.mp shut with leaf | ⟨_, _, along⟩
  · exact checkLeafCapacity_error leafRoom leaf
  · exact roomAlong_error branchRoom along

end Causes

namespace Tree

/-- A write that could not be counted is refused at a limit. -/
theorem checkGeneration_error {tree : Tree κ ν} {cause : Fault}
    (shut : tree.checkGeneration = .error cause) : cause.IsLimit := by
  rcases Checked.bind_eq_error.mp shut with uncounted | ⟨_, _, impossible⟩
  · exact checkedSum_error uncounted
  · contradiction

variable [Footprint κ] [Footprint ν]

/-- The gate of a write to the tree that leaves `count` entries. -/
def roomFor (tree : Tree κ ν) (count : Nat) : Checked Unit :=
  tree.capacities.roomFor κ ν tree.generation count

end Tree

end CountedBTree
