import CountedBTree.Search
import Mathlib

/-!
# Halving finds a cut

A yes-or-no question cuts a run when every entry before a yes also answers yes. On
such a run the halving search counts the yes answers, whatever the lengths of the
halves it looks at. The two splitting laws below say what one answer in the middle
tells about both sides; the search and the descents through a tree use the same ones.
-/

namespace CountedBTree

variable {α : Type}

/-- Yes answers come first: a later yes forces every earlier answer. -/
def Cut (holds : α → Bool) (run : List α) : Prop :=
  run.Pairwise (fun earlier later => holds later = true → holds earlier = true)

namespace Cut

variable {holds : α → Bool}

/-- Leaving entries out of a run keeps it cut. -/
theorem of_sublist {part run : List α} (cut : Cut holds run) (inside : part.Sublist run) :
    Cut holds part :=
  List.Pairwise.sublist inside cut

/-- A yes in the middle makes everything before it a yes. -/
theorem before_yes {front back : List α} {middle : α} (cut : Cut holds (front ++ middle :: back))
    (yes : holds middle = true) : ∀ entry ∈ front, holds entry = true := by
  intro entry member
  have crossing := (List.pairwise_append.mp cut).2.2
  exact crossing entry member middle List.mem_cons_self yes

/-- A no in the middle makes everything after it a no. -/
theorem after_no {front back : List α} {middle : α} (cut : Cut holds (front ++ middle :: back))
    (no : holds middle = false) : ∀ entry ∈ back, holds entry = false := by
  intro entry member
  have tail : (middle :: back).Pairwise
      (fun earlier later => holds later = true → holds earlier = true) :=
    (List.pairwise_append.mp cut).2.1
  have forced : holds entry = true → holds middle = true :=
    (List.pairwise_cons.mp tail).1 entry member
  cases answer : holds entry with
  | false => rfl
  | true => simp [forced answer] at no

/-- After a yes, only the part from that entry on remains to be counted. -/
theorem countP_yes {front back : List α} {middle : α} (cut : Cut holds (front ++ middle :: back))
    (yes : holds middle = true) :
    (front ++ middle :: back).countP holds = front.length + (middle :: back).countP holds := by
  rw [List.countP_append, List.countP_eq_length.mpr (cut.before_yes yes)]

/-- After a no, only the part before that entry remains to be counted. -/
theorem countP_no {front back : List α} {middle : α} (cut : Cut holds (front ++ middle :: back))
    (no : holds middle = false) :
    (front ++ middle :: back).countP holds = front.countP holds := by
  have none : (middle :: back).countP holds = 0 := by
    rw [List.countP_eq_zero]
    intro entry member
    rcases List.mem_cons.mp member with rfl | member
    · simp [no]
    · simp [cut.after_no no entry member]
  rw [List.countP_append, none, Nat.add_zero]

/-- The entries before the count all answer yes. -/
theorem take_countP {run : List α} (cut : Cut holds run) :
    ∀ entry ∈ run.take (run.countP holds), holds entry = true := by
  induction run with
  | nil => simp
  | cons first rest inductionHypothesis =>
    have restCut : Cut holds rest := (List.pairwise_cons.mp cut).2
    have fromFirst : Cut holds ([] ++ first :: rest) := cut
    cases answer : holds first with
    | false =>
      have none : (first :: rest).countP holds = 0 := by simpa using fromFirst.countP_no answer
      simp [none]
    | true =>
      intro entry member
      rw [List.countP_cons_of_pos answer, List.take_succ_cons, List.mem_cons] at member
      rcases member with rfl | member
      · exact answer
      · exact inductionHypothesis restCut entry member

/-- The entries from the count on all answer no. -/
theorem drop_countP {run : List α} (cut : Cut holds run) :
    ∀ entry ∈ run.drop (run.countP holds), holds entry = false := by
  induction run with
  | nil => simp
  | cons first rest inductionHypothesis =>
    have restCut : Cut holds rest := (List.pairwise_cons.mp cut).2
    have fromFirst : Cut holds ([] ++ first :: rest) := cut
    cases answer : holds first with
    | false =>
      have none : (first :: rest).countP holds = 0 := by simpa using fromFirst.countP_no answer
      intro entry member
      rw [none, List.drop_zero, List.mem_cons] at member
      rcases member with rfl | member
      · exact answer
      · exact fromFirst.after_no answer entry member
    | true =>
      rw [List.countP_cons_of_pos answer, List.drop_succ_cons]
      exact inductionHypothesis restCut

end Cut

/-- Halving counts the yes answers of a run that is cut.

The induction is on the bound for the number of steps. A yes in the middle counts the
whole first half and leaves the run from there on; a no leaves a prefix that still
reaches up to the middle, and nothing behind it counts. -/
theorem halve_eq_countP (holds : α → Bool) (steps : Nat) (run : List α)
    (enough : run.length ≤ steps) (cut : Cut holds run) :
    halve holds steps run = run.countP holds := by
  induction steps generalizing run with
  | zero =>
    have empty : run = [] := List.length_eq_zero_iff.mp (by omega)
    simp [halve, empty]
  | succ steps inductionHypothesis =>
    match run with
    | [] => simp [halve]
    | [only] => cases answer : holds only <;> simp [halve, answer]
    | first :: second :: rest =>
      generalize whole : first :: second :: rest = run at enough cut ⊢
      have long : 2 ≤ run.length := by simp [← whole]
      have inside : run.length / 2 < run.length := by omega
      have divided : run.take (run.length / 2) ++ run[run.length / 2] ::
          run.drop (run.length / 2 + 1) = run := by
        rw [← List.drop_eq_getElem_cons inside, List.take_append_drop]
      have unfolded : halve holds (steps + 1) run =
          if holds run[run.length / 2] then
            run.length / 2 + halve holds steps (run.drop (run.length / 2))
          else halve holds steps (run.take (run.length - run.length / 2)) := by
        subst whole
        simp only [halve]
        rw [List.drop_eq_getElem_cons inside]
      have parted : Cut holds (run.take (run.length / 2) ++ run[run.length / 2] ::
          run.drop (run.length / 2 + 1)) := divided.symm ▸ cut
      rw [unfolded]
      cases answer : holds run[run.length / 2] with
      | true =>
        have counted := parted.countP_yes answer
        rw [divided, ← List.drop_eq_getElem_cons inside, List.length_take] at counted
        have lower : halve holds steps (run.drop (run.length / 2)) =
            (run.drop (run.length / 2)).countP holds := by
          apply inductionHypothesis
          · simp only [List.length_drop]
            omega
          · exact cut.of_sublist (List.drop_sublist _ _)
        simp only [↓reduceIte, lower]
        omega
      | false =>
        have counted := parted.countP_no answer
        rw [divided] at counted
        have upper : halve holds steps (run.take (run.length - run.length / 2)) =
            (run.take (run.length - run.length / 2)).countP holds := by
          apply inductionHypothesis
          · simp only [List.length_take]
            omega
          · exact cut.of_sublist (List.take_sublist _ _)
        -- The prefix kept may be one longer than the half before the no.
        have between : (run.take (run.length / 2)).countP holds ≤
            (run.take (run.length - run.length / 2)).countP holds :=
          List.Sublist.countP_le (List.take_sublist_take_left (by omega))
        have below : (run.take (run.length - run.length / 2)).countP holds ≤
            run.countP holds :=
          List.Sublist.countP_le (List.take_sublist _ _)
        simp only [Bool.false_eq_true, ↓reduceIte, upper]
        omega

/-- The search of a node counts the entries that answer yes. -/
theorem partitionPoint_eq_countP (holds : α → Bool) (run : List α) (cut : Cut holds run) :
    partitionPoint holds run = run.countP holds :=
  halve_eq_countP holds run.length run (Nat.le_refl _) cut

end CountedBTree
