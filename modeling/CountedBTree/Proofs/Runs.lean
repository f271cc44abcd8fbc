import CountedBTree.Event
import CountedBTree.Session.Registers
import Mathlib

/-!
# Running checked and traced steps

How a step continues once its outcome is known. An answer hands its value to what
follows, a refusal skips everything after it, and a report only adds its event. These
equations take an operation apart one step at a time, without opening the monads.
Read backwards, an operation that answered had every step before it answer.
-/

namespace CountedBTree

variable {ε α β : Type}

namespace Checked

@[simp] theorem ok_bind (value : α) (next : α → Except ε β) :
    (Except.ok value >>= next) = next value := rfl

@[simp] theorem error_bind (cause : ε) (next : α → Except ε β) :
    ((Except.error cause : Except ε α) >>= next) = .error cause := rfl

@[simp] theorem pure_eq (value : α) : (pure value : Except ε α) = .ok value := rfl

@[simp] theorem throw_eq (cause : ε) : (throw cause : Except ε α) = .error cause := rfl

/-- A sequence that answered took an answer from its first step. -/
theorem bind_eq_ok {first : Except ε α} {next : α → Except ε β} {result : β} :
    (first >>= next) = .ok result ↔ ∃ value, first = .ok value ∧ next value = .ok result := by
  cases first with
  | error cause => simp
  | ok value => simp

/-- A sequence that was refused was refused in its first step or after it. -/
theorem bind_eq_error {first : Except ε α} {next : α → Except ε β} {cause : ε} :
    (first >>= next) = .error cause ↔
      first = .error cause ∨ ∃ value, first = .ok value ∧ next value = .error cause := by
  cases first <;> simp

/-- A step that is refused without a condition answered under it. -/
theorem ite_eq_ok {condition : Prop} [Decidable condition] {step : Except ε α} {cause : ε}
    {result : α} :
    (if condition then step else .error cause) = .ok result ↔
      condition ∧ step = .ok result := by
  by_cases holds : condition <;> simp [holds]

/-- A step that is refused under a condition answered without it. -/
theorem ite_error_eq_ok {condition : Prop} [Decidable condition] {step : Except ε α} {cause : ε}
    {result : α} :
    (if condition then .error cause else step) = .ok result ↔
      ¬condition ∧ step = .ok result := by
  by_cases holds : condition <;> simp [holds]

/-- A sum that was answered is the sum, and a machine word. -/
theorem sum_eq_ok {sum result : Nat} :
    checkedSum sum = .ok result ↔ sum < Fault.wordLimit ∧ sum = result := by
  simp [checkedSum, ite_eq_ok]

end Checked

namespace Traced

@[simp] theorem lift_ok (value : α) :
    (liftM (Except.ok value : Except ε α) : Traced ε α) = pure value := rfl

@[simp] theorem lift_error (cause : ε) :
    (liftM (Except.error cause : Except ε α) : Traced ε α) = refuse cause := rfl

@[simp] theorem refuse_bind (cause : ε) (next : α → Traced ε β) :
    ((refuse cause : Traced ε α) >>= next) = refuse cause := rfl

@[simp] theorem outcome_pure (value : α) : (pure value : Traced ε α).outcome = .ok value := rfl

@[simp] theorem events_pure (value : α) : (pure value : Traced ε α).events = [] := rfl

@[simp] theorem outcome_refuse (cause : ε) :
    (refuse cause : Traced ε α).outcome = .error cause := rfl

/-- Once the first step has answered, its events come first and the rest runs on its
value. -/
theorem answered_bind (events : List Event) (value : α) (next : α → Traced ε β) :
    ((⟨events, .ok value⟩ : Traced ε α) >>= next) =
      ⟨events ++ (next value).events, (next value).outcome⟩ := rfl

/-- The outcome of a sequence depends on the first step through its outcome only. -/
theorem outcome_bind (first : Traced ε α) (next : α → Traced ε β) :
    (first >>= next).outcome = first.outcome >>= fun value => (next value).outcome := by
  rcases first with ⟨events, outcome⟩
  cases outcome <;> rfl

/-- A sequence that answered took an answer from its first step. -/
theorem bind_eq_ok {first : Traced ε α} {next : α → Traced ε β} {result : β} :
    (first >>= next).outcome = .ok result ↔
      ∃ value, first.outcome = .ok value ∧ (next value).outcome = .ok result := by
  rw [outcome_bind, Checked.bind_eq_ok]

@[simp] theorem outcome_lift (step : Except ε α) :
    (liftM step : Traced ε α).outcome = step := rfl

end Traced

end CountedBTree
