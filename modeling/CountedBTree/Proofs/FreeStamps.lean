import CountedBTree.Proofs.DictionaryMoves

/-!
# Free stamps

Which stamps are free for a write is what decides how roots are shared. A stamp stands for
the place of a root in memory, and the places that are free for a write are those where
nobody but the dictionary written to holds a root. So a write may change a root in place just
if the root is not shared, and has to copy it otherwise. As a bookmark holds the root of the
dictionary that issued it, no write takes that place while the bookmark is kept.

Counting upwards is another way to find a free stamp, and the one that a session takes on its
own. Commands attempted one after the other are therefore moves of a run, those apart that
are refused.
-/

namespace CountedBTree

/-- Some number is greater than those of all values that have a name. -/
theorem Registers.exists_bound {α : Type} (registers : Registers α) (number : α → Nat) :
    ∃ bound, ∀ {name value}, registers.get? name = some value → number value < bound := by
  obtain ⟨items⟩ := registers
  induction items with
  | nil =>
    refine ⟨0, ?_⟩
    intro name value present
    simp [get?] at present
  | cons item items inductionHypothesis =>
    obtain ⟨bound, below⟩ := inductionHypothesis
    refine ⟨max bound (number item.2 + 1), ?_⟩
    intro name value present
    rw [get?, List.lookup_cons] at present
    cases here : name == item.1 with
    | true =>
      rw [here] at present
      obtain rfl := Option.some.inj present
      exact lt_max_of_lt_right (Nat.lt_succ_self _)
    | false =>
      rw [here] at present
      exact lt_max_of_lt_left (below present)

namespace DictionarySession

variable {κ ν : Type}

/-! ## Roots in memory -/

/-- A dictionary of another name, or a bookmark, holds the root that the stamp stands for. -/
def HeldBeside (session : DictionarySession κ ν) (name : String) (stamp : Stamp) : Prop :=
  (∃ other held, other ≠ name ∧ session.dictionaries.get? other = some held ∧
    held.state = stamp) ∨
  ∃ mark bookmark, session.bookmarks.get? mark = some bookmark ∧ bookmark.state = stamp

section Sharing

variable [Ord κ] [SampleKey κ] [SampleValue ν]
variable {session : DictionarySession κ ν} {command : DictionaryCommand κ ν} {name : String}

/-- The stamps that are free for a write are those of the places where nobody beside the
dictionary holds a root: its own place if the root is not shared, and any place without a
root. -/
theorem unused_iff_not_heldBeside {stamp : Stamp}
    (touches : command.Makes name ∨ command.Writes session name) :
    (session.offer stamp).Unused command ↔ ¬ session.HeldBeside name stamp := by
  constructor
  · intro unused
    rintro (⟨other, held, different, present, stamped⟩ | ⟨mark, bookmark, marked, stamped⟩)
    · have alsoTouches := unused.dictionaries present stamped
      exact different (DictionaryCommand.touched_unique alsoTouches touches)
    · exact unused.bookmarks marked stamped
  · intro alone
    constructor
    · intro mark bookmark marked stamped
      exact alone (.inr ⟨mark, bookmark, marked, stamped⟩)
    · intro other held present stamped
      by_cases same : other = name
      · exact same ▸ touches
      · exact absurd (.inl ⟨other, held, same, present, stamped⟩) alone

/-- There is always a stamp that is free, whatever the command. -/
theorem exists_unused (session : DictionarySession κ ν) (command : DictionaryCommand κ ν) :
    ∃ stamp, (session.offer stamp).Unused command := by
  obtain ⟨first, dictionaries⟩ :=
    session.dictionaries.exists_bound (fun held => held.state.number)
  obtain ⟨second, bookmarks⟩ :=
    session.bookmarks.exists_bound (fun bookmark => bookmark.state.number)
  refine ⟨⟨max first second⟩, ?_, ?_⟩
  · intro mark bookmark marked stamped
    have below := bookmarks marked
    rw [stamped] at below
    exact absurd below (not_lt_of_ge (le_max_right first second))
  · intro name held present stamped
    have below := dictionaries present
    rw [stamped] at below
    exact absurd below (not_lt_of_ge (le_max_left first second))

end Sharing

/-! ## Counting -/

/-- Every stamp was handed out before the one at hand. -/
structure Counts (session : DictionarySession κ ν) : Prop where
  dictionaries : ∀ {name held}, session.dictionaries.get? name = some held →
    held.state.number < session.fresh.number
  bookmarks : ∀ {mark bookmark}, session.bookmarks.get? mark = some bookmark →
    bookmark.state.number < session.fresh.number

/-- A session without dictionaries has handed out no stamps. -/
theorem empty_counts : (empty : DictionarySession κ ν).Counts where
  dictionaries present := by simp [empty, Registers.empty, Registers.get?] at present
  bookmarks marked := by simp [empty, Registers.empty, Registers.get?] at marked

variable [Ord κ] [SampleKey κ] [SampleValue ν]
variable {session after : DictionarySession κ ν} {command : DictionaryCommand κ ν}
variable {reply : Reply κ ν}

/-- A stamp that was not handed out before is free. -/
theorem Counts.unused (counts : session.Counts) (command : DictionaryCommand κ ν) :
    session.Unused command where
  bookmarks marked stamped := absurd (counts.bookmarks marked) (by simp [stamped])
  dictionaries present stamped := absurd (counts.dictionaries present) (by simp [stamped])

variable [Footprint κ] [Footprint ν]

/-- A command that stores what it wrote takes the next stamp, and any other command leaves
the dictionaries there are. -/
theorem Effect.fresh_cases (effect : Effect session command reply after) :
    after.fresh = session.fresh.succ ∨ after.fresh = session.fresh ∧
      ∀ {name held}, after.dictionaries.get? name = some held →
        ∃ earlier, session.dictionaries.get? earlier = some held := by
  cases effect with
  | @copy target source copied present =>
    refine .inr ⟨rfl, ?_⟩
    intro name held read
    rcases Registers.get_set_cases read with ⟨_, rfl⟩ | ⟨_, before⟩
    · exact ⟨source, present⟩
    · exact ⟨name, before⟩
  | _ => first | exact .inl rfl | exact .inr ⟨rfl, fun read => ⟨_, read⟩⟩

/-- A session that counts its stamps goes on to count them. -/
theorem Effect.counts [Std.TransOrd κ] (coherent : session.Coherent) (counts : session.Counts)
    (effect : Effect session command reply after) : after.Counts := by
  have later : session.fresh.number ≤ after.fresh.number := by
    rcases effect.fresh_cases with next | ⟨same, _⟩
    · rw [next]
      exact Nat.le_succ _
    · exact Nat.le_of_eq (congrArg Stamp.number same.symm)
  have held : ∀ {name held}, after.dictionaries.get? name = some held →
      held.state.number < after.fresh.number := by
    intro name held read
    rcases effect.fresh_cases with next | ⟨same, earlier⟩
    · rcases (effect.origin coherent read).old_or_touched (counts.unused command) with
        ⟨⟨_, before⟩, _⟩ | ⟨_, _, stamped⟩
      · exact Nat.lt_of_lt_of_le (counts.dictionaries before) later
      · rw [stamped, next]
        exact Nat.lt_succ_self _
    · obtain ⟨_, before⟩ := earlier read
      exact same ▸ counts.dictionaries before
  refine ⟨held, ?_⟩
  intro mark bookmark read
  rcases effect.bookmark_origin read with ⟨_, marked⟩ | ⟨_, _, _, issuing, there, issued⟩
  · exact Nat.lt_of_lt_of_le (counts.bookmarks marked) later
  · obtain ⟨_, marks⟩ := coherent.request_marks there issued
    rw [(Dictionary.accepts_iff.mp marks.1).1]
    exact Nat.lt_of_lt_of_le (counts.dictionaries there) later

variable [BEq κ] [BEq ν] [Listed κ] [Listed ν]

/-- Commands attempted one after the other, counting stamps. -/
def attemptAll (session : DictionarySession κ ν) (commands : List (DictionaryCommand κ ν)) :
    DictionarySession κ ν :=
  commands.foldl (fun current command => (attempt current (current.step command)).2) session

/-- Commands attempted one after the other are a run, and the stamps go on being counted. -/
theorem attemptAll_reached [Std.TransOrd κ] (commands : List (DictionaryCommand κ ν))
    (reached : session.Reached) (counts : session.Counts) :
    (session.attemptAll commands).Reached ∧ (session.attemptAll commands).Counts := by
  induction commands generalizing session with
  | nil => exact ⟨reached, counts⟩
  | cons command commands inductionHypothesis =>
    rw [attemptAll, List.foldl_cons]
    cases ran : (session.step command).outcome with
    | error refusal =>
      simp only [attempt, ran]
      exact inductionHypothesis reached counts
    | ok answer =>
      obtain ⟨reply, after⟩ := answer
      simp only [attempt, ran]
      apply inductionHypothesis
      · exact reached.move ⟨session.fresh, counts.unused command, ran⟩
      · exact (step_effect ran).counts reached.coherent counts

end DictionarySession

end CountedBTree
