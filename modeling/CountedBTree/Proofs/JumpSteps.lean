import CountedBTree.Proofs.OffsetBijection
import CountedBTree.Proofs.Strides

/-!
# Jumps and single steps

A jump counts to the offset it is to end at and goes there: inside one leaf by the slot alone,
anywhere else from the root. A single step climbs and descends the tree to the next entry. What
both answer is decided by the offset alone, because a bookmark that marks an offset is the one
that is issued for it.

A walk takes one step after the other in one direction. It is refused at the first step that
would leave the dictionary, and as it never turns round, that is so just if it was to end
outside. A jump of as many steps is refused then, too, and otherwise answers what the walk does.
-/

namespace CountedBTree

/-- The direction of a walk. -/
inductive Heading where
  /-- To greater offsets. -/
  | forwards
  /-- To smaller offsets. -/
  | backwards
  deriving DecidableEq, Repr

namespace Heading

/-- The direction of a signed number of steps. -/
def ofSteps (steps : Int) : Heading := if 0 ≤ steps then forwards else backwards

/-- The signed number of steps in a direction. -/
def signed : Heading → Nat → Int
  | forwards, count => count
  | backwards, count => -count

/-- The cause for which a step is refused at the end of a direction. -/
def refusal : Heading → Fault
  | forwards => .endBookmark
  | backwards => .beforeStart

/-- No steps lead nowhere. -/
@[simp] theorem signed_zero (heading : Heading) : heading.signed 0 = 0 := by
  cases heading <;> rfl

/-- A signed number of steps goes in its direction. -/
@[simp] theorem signed_natAbs (steps : Int) : (ofSteps steps).signed steps.natAbs = steps := by
  unfold ofSteps
  split <;> simp only [signed] <;> omega

/-- One more step in a direction. -/
theorem signed_succ (heading : Heading) (count : Nat) :
    heading.signed (count + 1) = heading.signed 1 + heading.signed count := by
  cases heading <;> simp only [signed] <;> omega

end Heading

variable {κ ν : Type}

namespace Dictionary

/-- The offset is that of an entry of the dictionary or that of its end. -/
def Spans (dictionary : Dictionary κ ν) (offset : Int) : Prop :=
  0 ≤ offset ∧ offset ≤ dictionary.size

instance (dictionary : Dictionary κ ν) (offset : Int) : Decidable (dictionary.Spans offset) :=
  inferInstanceAs (Decidable (0 ≤ offset ∧ offset ≤ dictionary.size))

/-- One step in a direction. -/
def stepOnce (dictionary : Dictionary κ ν) :
    Heading → Bookmark κ ν → Checked (Bookmark κ ν)
  | .forwards => dictionary.bookmarkAfter
  | .backwards => dictionary.bookmarkBefore

/-- A number of steps in one direction. -/
def stepEach (dictionary : Dictionary κ ν) (heading : Heading) :
    Nat → Bookmark κ ν → Checked (Bookmark κ ν)
  | 0, bookmark => .ok bookmark
  | count + 1, bookmark => do
      let moved ← dictionary.stepOnce heading bookmark
      stepEach dictionary heading count moved

variable [Ord κ] [Footprint κ] [Footprint ν] {dictionary : Dictionary κ ν}
variable {bookmark other : Bookmark κ ν} {offset : Nat}

/-! ## The bookmark of an offset -/

/-- The bookmark that marks an offset is the one issued for it. -/
theorem Marks.bookmarkAt_eq (marks : dictionary.Marks bookmark offset)
    (sound : dictionary.tree.Sound) : dictionary.bookmarkAt offset = .ok bookmark := by
  obtain ⟨height, shaped⟩ := sound.shaped
  obtain ⟨accepted, placed⟩ := marks
  obtain ⟨sameState, sameGeneration⟩ := accepts_iff.mp accepted
  obtain ⟨there, state, generation⟩ := bookmark
  obtain rfl : state = dictionary.state := sameState
  obtain rfl : generation = dictionary.tree.generation := sameGeneration
  rcases placed with ⟨rfl, rfl⟩ | ⟨place, rfl, leads⟩
  · simp [bookmarkAt, endBookmark, issue]
  · have inside : offset < dictionary.size :=
      Nat.lt_of_lt_of_eq (leads.offset_lt shaped) shaped.total_eq.symm
    simp [bookmarkAt, Nat.le_of_lt inside, Nat.ne_of_lt inside, Tree.placeAt_eq sound leads, issue]

/-- Bookmarks that mark one offset are the same. -/
theorem Marks.unique (marks : dictionary.Marks bookmark offset)
    (otherMarks : dictionary.Marks other offset) (sound : dictionary.tree.Sound) :
    bookmark = other :=
  Except.ok.inj ((marks.bookmarkAt_eq sound).symm.trans (otherMarks.bookmarkAt_eq sound))

/-! ## Walks -/

/-- A step ends one offset further on, or is refused because there is none. -/
theorem stepOnce_cases (sound : dictionary.tree.Sound) (marks : dictionary.Marks bookmark offset)
    (heading : Heading) :
    (¬ dictionary.Spans (offset + heading.signed 1) ∧
        dictionary.stepOnce heading bookmark = .error heading.refusal) ∨
      ∃ moved target, dictionary.stepOnce heading bookmark = .ok moved ∧
        dictionary.Marks moved target ∧ (target : Int) = offset + heading.signed 1 := by
  cases heading with
  | forwards =>
    rcases bookmarkAfter_cases sound marks with ⟨atEnd, refused⟩ | ⟨_, moved, stepped, marksNext⟩
    · left
      refine ⟨?_, refused⟩
      rcases marks.end_or_inside sound with ⟨_, last⟩ | ⟨notEnd, _⟩
      · simp only [Spans, Heading.signed]
        omega
      · exact absurd atEnd (by simp [notEnd])
    · right
      exact ⟨moved, offset + 1, stepped, marksNext, rfl⟩
  | backwards =>
    rcases bookmarkBefore_cases sound marks with ⟨rfl, refused⟩ | ⟨later, moved, stepped, before⟩
    · left
      refine ⟨?_, refused⟩
      simp only [Spans, Heading.signed]
      omega
    · right
      refine ⟨moved, offset - 1, stepped, before, ?_⟩
      simp only [Heading.signed]
      omega

/-- A walk ends as many offsets further on as it takes steps, or is refused because it was to
end outside. -/
theorem stepEach_cases (sound : dictionary.tree.Sound) (heading : Heading) (count : Nat)
    (marks : dictionary.Marks bookmark offset) :
    (¬ dictionary.Spans (offset + heading.signed count) ∧
        dictionary.stepEach heading count bookmark = .error heading.refusal) ∨
      ∃ moved target, dictionary.stepEach heading count bookmark = .ok moved ∧
        dictionary.Marks moved target ∧ (target : Int) = offset + heading.signed count := by
  induction count generalizing bookmark offset with
  | zero =>
    right
    exact ⟨bookmark, offset, rfl, marks, by simp⟩
  | succ count inductionHypothesis =>
    rw [Heading.signed_succ, ← Int.add_assoc]
    rcases stepOnce_cases sound marks heading with
      ⟨leaves, refused⟩ | ⟨next, further, stepped, marksNext, nextOffset⟩
    · left
      refine ⟨?_, by simp [stepEach, refused]⟩
      -- Further steps in the same direction do not lead back inside.
      have here := marks.le_size sound
      cases heading <;> simp only [Spans, Heading.signed] at leaves ⊢ <;> omega
    · rw [← nextOffset]
      rcases inductionHypothesis marksNext with ⟨outside, refused⟩ | ⟨moved, target, walked, there⟩
      · left
        exact ⟨outside, by simp [stepEach, stepped, refused]⟩
      · right
        exact ⟨moved, target, by simp [stepEach, stepped, walked], there⟩

/-! ## Jumps -/

/-- A jump from an offset is a walk of single steps. Inside the dictionary both answer the
bookmark of the offset to go to, whether it is in the same leaf or not. Outside both are
refused. -/
structure JumpsLike (dictionary : Dictionary κ ν) (bookmark : Bookmark κ ν) (offset : Nat)
    (steps : Int) : Prop where
  answered : dictionary.Spans (offset + steps) → ∃ moved,
    dictionary.jump bookmark steps = .ok moved ∧
    dictionary.stepEach (.ofSteps steps) steps.natAbs bookmark = .ok moved ∧
    dictionary.bookmarkAt (offset + steps).toNat = .ok moved
  refused : ¬ dictionary.Spans (offset + steps) →
    dictionary.jump bookmark steps = .error .jumpOutOfRange ∧
    dictionary.stepEach (.ofSteps steps) steps.natAbs bookmark =
      .error (Heading.ofSteps steps).refusal
  shortcut : ∀ place shifted, bookmark.place = some place →
    place.shiftedInLeaf steps = some shifted →
    dictionary.tree.placeAt (offset + steps).toNat = .ok shifted

/-- From a bookmark that marks an offset, a jump is a walk of single steps. -/
theorem Marks.jumpsLike (marks : dictionary.Marks bookmark offset)
    (sound : dictionary.tree.Sound) (steps : Int) : dictionary.JumpsLike bookmark offset steps := by
  have walked := stepEach_cases sound (.ofSteps steps) steps.natAbs marks
  rw [Heading.signed_natAbs] at walked
  have jumped := jump_cases sound marks steps
  constructor
  case answered =>
    intro inside
    obtain ⟨moved, ran⟩ := (jumped.resolve_left (fun outside => outside.1 inside)).2
    obtain ⟨next, target, steppedTo, marksThere, isTarget⟩ :=
      walked.resolve_left (fun outside => outside.1 inside)
    obtain ⟨there, isThere, marksMoved⟩ := jump_marks sound marks ran
    obtain rfl : there = target := by omega
    obtain rfl := marksMoved.unique marksThere sound
    refine ⟨moved, ran, steppedTo, ?_⟩
    rw [← isThere, Int.toNat_natCast]
    exact marksMoved.bookmarkAt_eq sound
  case refused =>
    intro outside
    constructor
    · exact (jumped.resolve_right (fun inside => outside inside.1)).2
    · rcases walked with ⟨_, refused⟩ | ⟨next, target, _, marksThere, isTarget⟩
      · exact refused
      · have within := marksThere.le_size sound
        exact absurd ⟨by omega, by omega⟩ outside
  case shortcut =>
    intro place shifted placed moves
    rcases marks.2 with ⟨atEnd, _⟩ | ⟨other, there, leads⟩
    · exact absurd (atEnd.symm.trans placed) (Option.some_ne_none _).symm
    · obtain rfl : other = place := Option.some.inj (there.symm.trans placed)
      obtain ⟨target, isTarget, leadsThere⟩ := leads.shiftedInLeaf moves
      rw [← isTarget, Int.toNat_natCast]
      exact Tree.placeAt_eq sound leadsThere

end Dictionary

end CountedBTree
