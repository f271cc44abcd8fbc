import CountedBTree.Event

/-!
# Sessions

A session runs commands one after the other on named values. A command answers, or
is refused: because it names a value that is not there or is otherwise malformed, or
for one of the faults of the operation it asks for. A refused command changes
nothing, and the session goes on.
-/

namespace CountedBTree

/-- Why a command was refused. -/
inductive Refusal where
  /-- The command makes no sense in this session. -/
  | malformed
  /-- The operation asked for was refused. -/
  | fault (cause : Fault)
  deriving DecidableEq, Repr

/-- What running a command gives. -/
abbrev Step (α : Type) := Traced Refusal α

instance : MonadLift (Except Fault) (Traced Refusal) where
  monadLift checked := ⟨[], checked.mapError .fault⟩

instance : MonadLift (Traced Fault) (Traced Refusal) where
  monadLift run := run.mapCause .fault

/-- Named values. -/
structure Registers (α : Type) where
  /-- The values with their names, at most one for each name. -/
  items : List (String × α)
  deriving Repr

namespace Registers

variable {α : Type}

/-- No values. -/
def empty : Registers α := ⟨[]⟩

/-- The value of a name. -/
def get? (registers : Registers α) (name : String) : Option α := registers.items.lookup name

/-- Give a name a value, in place of the one it had. -/
def set (registers : Registers α) (name : String) (value : α) : Registers α :=
  ⟨(name, value) :: registers.items.filter (fun item => item.1 != name)⟩

/-- The value of a name that a command relies on. -/
def need (registers : Registers α) (name : String) : Step α :=
  match registers.get? name with
  | some value => pure value
  | none => Traced.refuse .malformed

end Registers

/-- Run a command on a session: the answer, and the session after it, which is the
session before it when the command was refused. -/
def attempt {σ α : Type} (session : σ) (step : Step (α × σ)) : Step α × σ :=
  match step.outcome with
  | .ok (answer, after) => (⟨step.events, .ok answer⟩, after)
  | .error refusal => (⟨step.events, .error refusal⟩, session)

end CountedBTree
