import CountedBTree.Proofs.JumpSteps
import CountedBTree.Proofs.Preconditions

/-!
# Jumps with a limit

A jump with a limit is a walk that gives up as soon as it is to take a further step from the
limit. It does so wherever it was to end, even outside the dictionary, and a limit behind the
start or at the target does not stop it.

A walk that starts at its limit is to take a step from it right away. So a limit at the start
stops every jump that goes anywhere, although it does not lie between the start and the target.
-/

namespace CountedBTree

variable {κ ν : Type}

/-- So many steps in a direction lead over the limit: fewer of them lead to it. -/
def Heading.Overtakes (heading : Heading) (count offset limit : Nat) : Prop :=
  ∃ taken < count, (limit : Int) = offset + heading.signed taken

namespace Heading

variable {heading : Heading} {count offset next limit : Nat}

/-- A walk does not lead over its limit without a step. -/
theorem not_overtakes_zero : ¬ heading.Overtakes 0 offset limit := by
  rintro ⟨taken, fewer, _⟩
  exact absurd fewer (Nat.not_lt_zero taken)

/-- A walk that takes a step leads over its start. -/
theorem overtakes_here : heading.Overtakes (count + 1) offset offset :=
  ⟨0, Nat.succ_pos count, by simp⟩

/-- A walk leads over a limit at its start, and otherwise over one that its further steps lead
over. -/
theorem overtakes_succ (stepped : (next : Int) = offset + heading.signed 1) :
    heading.Overtakes (count + 1) offset limit ↔
      offset = limit ∨ heading.Overtakes count next limit := by
  constructor
  · rintro ⟨taken, fewer, reaches⟩
    cases taken with
    | zero =>
      left
      rw [signed_zero] at reaches
      omega
    | succ taken =>
      right
      refine ⟨taken, Nat.lt_of_succ_lt_succ fewer, ?_⟩
      rw [reaches, signed_succ, stepped, Int.add_assoc]
  · rintro (rfl | ⟨taken, fewer, reaches⟩)
    · exact overtakes_here
    · refine ⟨taken + 1, Nat.succ_lt_succ fewer, ?_⟩
      rw [reaches, signed_succ, stepped, Int.add_assoc]

/-- A signed number of steps leads over the limits that stop a jump of as many steps. -/
theorem overtakes_iff_stops {steps : Int} :
    (ofSteps steps).Overtakes steps.natAbs offset limit ↔
      DictionarySession.Stops offset limit steps := by
  unfold Overtakes DictionarySession.Stops ofSteps
  by_cases forth : 0 ≤ steps
  · rw [if_pos forth]
    simp only [signed]
    constructor
    · rintro ⟨taken, fewer, reaches⟩
      omega
    · intro stops
      exact ⟨limit - offset, by omega, by omega⟩
  · rw [if_neg forth]
    simp only [signed]
    constructor
    · rintro ⟨taken, fewer, reaches⟩
      omega
    · intro stops
      exact ⟨offset - limit, by omega, by omega⟩

end Heading

namespace Dictionary

/-- A number of steps in one direction, given up when a further one is due at the limit. -/
def stepUntil (dictionary : Dictionary κ ν) (limit : Bookmark κ ν) (heading : Heading) :
    Nat → Bookmark κ ν → Checked (Option (Bookmark κ ν))
  | 0, bookmark => .ok (some bookmark)
  | count + 1, bookmark => do
      let order ← bookmark.order limit
      if order.isEq then pure none
      else
        let moved ← dictionary.stepOnce heading bookmark
        stepUntil dictionary limit heading count moved

variable [Ord κ] [Footprint κ] [Footprint ν] {dictionary : Dictionary κ ν}
variable {bookmark limit : Bookmark κ ν}
variable {offset limitOffset : Nat}

/-! ## Walks with a limit -/

/-- No further step is taken from the limit. -/
theorem stepUntil_here (sound : dictionary.tree.Sound) (heading : Heading) (count : Nat)
    (marks : dictionary.Marks bookmark offset) (limitMarks : dictionary.Marks limit offset) :
    dictionary.stepUntil limit heading (count + 1) bookmark = .ok none := by
  simp [stepUntil, order_eq sound marks limitMarks]

/-- From anywhere else, the walk goes on after one step. -/
theorem stepUntil_apart (sound : dictionary.tree.Sound) (heading : Heading) (count : Nat)
    (marks : dictionary.Marks bookmark offset) (limitMarks : dictionary.Marks limit limitOffset)
    (apart : offset ≠ limitOffset) :
    dictionary.stepUntil limit heading (count + 1) bookmark =
      dictionary.stepOnce heading bookmark >>= dictionary.stepUntil limit heading count := by
  simp [stepUntil, order_eq sound marks limitMarks, apart]

/-- A walk that leads over its limit is given up there. It gets that far, because the limit is
inside the dictionary. -/
theorem stepUntil_stopped (sound : dictionary.tree.Sound) (heading : Heading) (count : Nat)
    (marks : dictionary.Marks bookmark offset) (limitMarks : dictionary.Marks limit limitOffset)
    (overtakes : heading.Overtakes count offset limitOffset) :
    dictionary.stepUntil limit heading count bookmark = .ok none := by
  induction count generalizing bookmark offset with
  | zero => exact absurd overtakes Heading.not_overtakes_zero
  | succ count inductionHypothesis =>
    by_cases here : offset = limitOffset
    · subst here
      exact stepUntil_here sound heading count marks limitMarks
    · rw [stepUntil_apart sound heading count marks limitMarks here]
      rcases stepOnce_cases sound marks heading with
        ⟨leaves, _⟩ | ⟨moved, next, stepped, marksNext, nextOffset⟩
      · obtain ⟨taken, _, reaches⟩ := overtakes
        have within := marks.le_size sound
        have limitWithin := limitMarks.le_size sound
        cases heading <;> simp only [Spans, Heading.signed] at leaves reaches <;> omega
      · rw [stepped, Checked.ok_bind]
        apply inductionHypothesis marksNext
        exact ((Heading.overtakes_succ nextOffset).mp overtakes).resolve_left here

/-- A walk that does not lead over its limit is a walk without one. -/
theorem stepUntil_unstopped (sound : dictionary.tree.Sound) (heading : Heading) (count : Nat)
    (marks : dictionary.Marks bookmark offset) (limitMarks : dictionary.Marks limit limitOffset)
    (goesOn : ¬ heading.Overtakes count offset limitOffset) :
    dictionary.stepUntil limit heading count bookmark =
      (dictionary.stepEach heading count bookmark).map some := by
  induction count generalizing bookmark offset with
  | zero => rfl
  | succ count inductionHypothesis =>
    have apart : offset ≠ limitOffset := by
      rintro rfl
      exact goesOn Heading.overtakes_here
    rw [stepUntil_apart sound heading count marks limitMarks apart]
    rcases stepOnce_cases sound marks heading with
      ⟨_, refused⟩ | ⟨moved, next, stepped, marksNext, nextOffset⟩
    · simp [stepEach, refused, Except.map]
    · rw [stepped, Checked.ok_bind, stepEach, stepped, Checked.ok_bind]
      apply inductionHypothesis marksNext
      intro further
      exact goesOn ((Heading.overtakes_succ nextOffset).mpr (.inr further))

/-! ## Jumps with a limit -/

/-- A jump that leads over its limit answers none, and any other one is a jump without it. -/
theorem jumpWithin_eq (sound : dictionary.tree.Sound) (marks : dictionary.Marks bookmark offset)
    (limitMarks : dictionary.Marks limit limitOffset) (steps : Int) :
    ((Heading.ofSteps steps).Overtakes steps.natAbs offset limitOffset →
      dictionary.jumpWithin bookmark steps limit = .ok none) ∧
    (¬ (Heading.ofSteps steps).Overtakes steps.natAbs offset limitOffset →
      dictionary.jumpWithin bookmark steps limit =
        (dictionary.jump bookmark steps).map some) := by
  have apart := distance_eq sound marks limitMarks
  rw [Heading.overtakes_iff_stops, ← DictionarySession.passes_iff]
  constructor
  · intro passes
    simp [jumpWithin, apart, passes]
  · intro goesOn
    simp only [jumpWithin, apart, Checked.ok_bind, goesOn, Bool.false_eq_true, ↓reduceIte]
    cases dictionary.jump bookmark steps <;> rfl

/-- A jump with a limit is a walk that gives up when a further step is due at the limit. It
answers none then, and otherwise what the jump without a limit answers. Both are refused if the
walk would leave the dictionary before that. -/
structure JumpsWithinLike (dictionary : Dictionary κ ν) (bookmark limit : Bookmark κ ν)
    (offset limitOffset : Nat) (steps : Int) : Prop where
  walks : dictionary.jumpWithin bookmark steps limit =
    (dictionary.stepUntil limit (.ofSteps steps) steps.natAbs bookmark).mapError
      (fun _ => .jumpOutOfRange)
  stopped_iff : dictionary.jumpWithin bookmark steps limit = .ok none ↔
    (Heading.ofSteps steps).Overtakes steps.natAbs offset limitOffset
  answered : ¬ (Heading.ofSteps steps).Overtakes steps.natAbs offset limitOffset →
    dictionary.Spans (offset + steps) → ∃ moved,
      dictionary.jumpWithin bookmark steps limit = .ok (some moved) ∧
      dictionary.stepEach (.ofSteps steps) steps.natAbs bookmark = .ok moved
  refused_iff : dictionary.jumpWithin bookmark steps limit = .error .jumpOutOfRange ↔
    ¬ (Heading.ofSteps steps).Overtakes steps.natAbs offset limitOffset ∧
      ¬ dictionary.Spans (offset + steps)

/-- With a bookmark for its limit, a jump is a walk that gives up there. -/
theorem Marks.jumpsWithinLike (marks : dictionary.Marks bookmark offset)
    (limitMarks : dictionary.Marks limit limitOffset) (sound : dictionary.tree.Sound)
    (steps : Int) : dictionary.JumpsWithinLike bookmark limit offset limitOffset steps := by
  obtain ⟨stops, passesOn⟩ := jumpWithin_eq sound marks limitMarks steps
  have jumps := marks.jumpsLike sound steps
  by_cases overtakes : (Heading.ofSteps steps).Overtakes steps.natAbs offset limitOffset
  · have given := stepUntil_stopped sound _ _ marks limitMarks overtakes
    have stopped := stops overtakes
    constructor <;> simp [stopped, given, overtakes, Except.mapError]
  · have walked := stepUntil_unstopped sound _ _ marks limitMarks overtakes
    have jumped := passesOn overtakes
    by_cases inside : dictionary.Spans (offset + steps)
    · obtain ⟨moved, ran, stepped, _⟩ := jumps.answered inside
      rw [ran] at jumped
      rw [stepped] at walked
      constructor <;> simp [jumped, walked, stepped, overtakes, inside, Except.map, Except.mapError]
    · obtain ⟨refused, refusedToo⟩ := jumps.refused inside
      rw [refused] at jumped
      rw [refusedToo] at walked
      constructor <;> simp [jumped, walked, overtakes, inside, Except.map, Except.mapError]

end Dictionary

namespace DictionarySession

variable [Ord κ] [Footprint κ] [Footprint ν] [Std.TransOrd κ] [SampleKey κ] [SampleValue ν] [BEq κ]
variable [BEq ν] [Listed κ]
variable [Listed ν] {session : DictionarySession κ ν} {name mark limitMark : String}
variable {held : Dictionary κ ν} {bookmark limit : Bookmark κ ν}

/-- In every session that a run leads to, a jump from a bookmark that a dictionary accepts is a
walk of single steps, for every number of steps in either direction. With a limit that it
accepts as well, it is a walk that gives up when a further step is due at the limit. -/
theorem jump_isStepwise (reached : session.Reached)
    (present : session.dictionaries.get? name = some held)
    (marked : session.bookmarks.get? mark = some bookmark)
    (accepted : held.accepts bookmark = true) :
    ∃ offset, held.offsetOf bookmark = .ok offset ∧
      (∀ steps, held.JumpsLike bookmark offset steps) ∧
      ∀ limitMark limit, session.bookmarks.get? limitMark = some limit →
        held.accepts limit = true → ∃ limitOffset, held.offsetOf limit = .ok limitOffset ∧
          ∀ steps, held.JumpsWithinLike bookmark limit offset limitOffset steps := by
  have coherent := reached.coherent
  have sound := coherent.sound present
  obtain ⟨offset, marks⟩ := coherent.marks_of_accepts marked present accepted
  refine ⟨offset, Dictionary.offsetOf_eq sound marks, marks.jumpsLike sound, ?_⟩
  intro limitMark limit limitMarked limitAccepted
  obtain ⟨limitOffset, limitMarks⟩ :=
    coherent.marks_of_accepts limitMarked present limitAccepted
  exact ⟨limitOffset, Dictionary.offsetOf_eq sound limitMarks,
    marks.jumpsWithinLike limitMarks sound⟩

/-- Three entries in two leaves and a root between them. -/
def triple : Dictionary Int Int :=
  ⟨⟨.branch 2 3 [(2, 20)] [.leaf 2 1 [(1, 10)], .leaf 2 1 [(3, 30)]], ⟨2, 2⟩, 3⟩, ⟨1⟩⟩

/-- A session that holds the three entries, with bookmarks at the separator and at the last
one. -/
def tripleSession : DictionarySession Int Int :=
  (empty : DictionarySession Int Int).attemptAll
    [.create "d" ⟨2, 2⟩, .extend "d" [(1, 10), (2, 20), (3, 30)],
      .issue "d" (.offset 1) "separator", .issue "d" (.offset 2) "last"]

/-- The bookmark at the separator. -/
def atSeparator : Bookmark Int Int := triple.issue (some ⟨[], 0, triple.tree.root⟩)

/-- The bookmark at the last entry. -/
def atLast : Bookmark Int Int := triple.issue (some ⟨[1], 0, .leaf 2 1 [(3, 30)]⟩)

theorem tripleSession_reached : tripleSession.Reached :=
  (attemptAll_reached _ .start empty_counts).1

theorem triple_held : tripleSession.dictionaries.get? "d" = some triple := rfl

theorem atSeparator_marked : tripleSession.bookmarks.get? "separator" = some atSeparator := rfl

theorem atLast_marked : tripleSession.bookmarks.get? "last" = some atLast := rfl

/-- From the separator, a jump to the end answers what two steps do, and one further is refused
like three steps. A limit at the last entry stops both. It does not stop a jump that leaves the
dictionary backwards. -/
theorem jump_isStepwise_triple :
    tripleSession.Reached ∧ tripleSession.dictionaries.get? "d" = some triple ∧
      (∃ moved, triple.jump atSeparator 2 = .ok moved ∧
        triple.stepEach .forwards 2 atSeparator = .ok moved ∧ triple.bookmarkAt 3 = .ok moved) ∧
      triple.jump atSeparator 3 = .error .jumpOutOfRange ∧
      triple.stepEach .forwards 3 atSeparator = .error .endBookmark ∧
      triple.jumpWithin atSeparator 2 atLast = .ok none ∧
      triple.jumpWithin atSeparator 3 atLast = .ok none ∧
      triple.jumpWithin atSeparator (-2) atLast = .error .jumpOutOfRange := by
  obtain ⟨offset, counted, jumps, jumpsWithin⟩ :=
    jump_isStepwise tripleSession_reached triple_held atSeparator_marked rfl
  obtain rfl : 1 = offset := Except.ok.inj counted
  obtain ⟨limitOffset, limitCounted, within⟩ := jumpsWithin _ _ atLast_marked rfl
  obtain rfl : 2 = limitOffset := Except.ok.inj limitCounted
  have outside : ¬ triple.Spans (1 + 3) := by decide
  refine ⟨tripleSession_reached, triple_held, (jumps 2).answered (by decide),
    ((jumps 3).refused outside).1, ((jumps 3).refused outside).2,
    (within 2).stopped_iff.mpr ⟨1, by decide, rfl⟩,
    (within 3).stopped_iff.mpr ⟨1, by decide, rfl⟩, (within (-2)).refused_iff.mpr ⟨?_, ?_⟩⟩
  · rintro ⟨taken, fewer, reaches⟩
    have behind : (2 : Int) = 1 + -taken := reaches
    omega
  · decide

/-! ## Limits between the start and the target -/

/-- The limit lies between the start and the target and is neither of them. -/
def LiesBetween (offset limit : Nat) (target : Int) : Prop :=
  (offset < limit ∧ (limit : Int) < target) ∨ (target < limit ∧ limit < offset)

instance (offset limit : Nat) (target : Int) : Decidable (LiesBetween offset limit target) :=
  inferInstanceAs (Decidable
    ((offset < limit ∧ (limit : Int) < target) ∨ (target < limit ∧ limit < offset)))

/-- The limits that a jump leads over are those between its start and its target, and one at its
start if it goes anywhere. -/
theorem overtakes_iff_between {offset limit : Nat} {steps : Int} :
    (Heading.ofSteps steps).Overtakes steps.natAbs offset limit ↔
      LiesBetween offset limit (offset + steps) ∨ (limit = offset ∧ steps ≠ 0) := by
  rw [Heading.overtakes_iff_stops]
  unfold Stops LiesBetween
  omega

/-- In every session that a run leads to, a jump with a limit to a target inside a dictionary
answers none just if the limit lies between the start and the target, or if it is the start and
the jump goes anywhere. Otherwise it answers the bookmark of the target, whether the limit lies
on the other side of the start, at the target or behind it. -/
theorem limit_stopsBetween (reached : session.Reached)
    (present : session.dictionaries.get? name = some held)
    (marked : session.bookmarks.get? mark = some bookmark)
    (limitMarked : session.bookmarks.get? limitMark = some limit)
    (accepted : held.accepts bookmark = true) (limitAccepted : held.accepts limit = true) :
    ∃ offset limitOffset, held.offsetOf bookmark = .ok offset ∧
      held.offsetOf limit = .ok limitOffset ∧
      ∀ steps, held.Spans (offset + steps) →
        (held.jumpWithin bookmark steps limit = .ok none ↔
          LiesBetween offset limitOffset (offset + steps) ∨ (limitOffset = offset ∧ steps ≠ 0)) ∧
        (held.jumpWithin bookmark steps limit ≠ .ok none →
          ∃ moved, held.jumpWithin bookmark steps limit = .ok (some moved) ∧
            held.bookmarkAt (offset + steps).toNat = .ok moved) := by
  have coherent := reached.coherent
  have sound := coherent.sound present
  obtain ⟨offset, marks⟩ := coherent.marks_of_accepts marked present accepted
  obtain ⟨limitOffset, limitMarks⟩ :=
    coherent.marks_of_accepts limitMarked present limitAccepted
  refine ⟨offset, limitOffset, Dictionary.offsetOf_eq sound marks,
    Dictionary.offsetOf_eq sound limitMarks, ?_⟩
  intro steps inside
  have within := marks.jumpsWithinLike limitMarks sound steps
  constructor
  · rw [← overtakes_iff_between]
    exact within.stopped_iff
  · intro goesOn
    rw [ne_eq, within.stopped_iff] at goesOn
    obtain ⟨moved, jumped, walked⟩ := within.answered goesOn inside
    obtain ⟨there, _, walkedThere, placed⟩ := (marks.jumpsLike sound steps).answered inside
    obtain rfl : moved = there := Except.ok.inj (walked.symm.trans walkedThere)
    exact ⟨moved, jumped, placed⟩

/-- From the separator, a limit at the last entry stops a jump over it to the end. It does not
stop a jump onto it, or one the other way. -/
theorem limit_stopsBetween_triple :
    tripleSession.Reached ∧ tripleSession.dictionaries.get? "d" = some triple ∧
      triple.jumpWithin atSeparator 2 atLast = .ok none ∧
      triple.jumpWithin atSeparator 1 atLast = .ok (some atLast) ∧
      ∃ moved, triple.jumpWithin atSeparator (-1) atLast = .ok (some moved) ∧
        triple.bookmarkAt 0 = .ok moved := by
  obtain ⟨offset, limitOffset, counted, limitCounted, limited⟩ :=
    limit_stopsBetween tripleSession_reached triple_held atSeparator_marked atLast_marked rfl rfl
  obtain rfl : 1 = offset := Except.ok.inj counted
  obtain rfl : 2 = limitOffset := Except.ok.inj limitCounted
  refine ⟨tripleSession_reached, triple_held, ?_, ?_, ?_⟩
  · exact (limited 2 (by decide)).1.mpr (.inl (.inl (by decide)))
  · have onto : triple.jumpWithin atSeparator 1 atLast ≠ .ok none := by
      rw [ne_eq, (limited 1 (by decide)).1]
      decide
    obtain ⟨moved, jumped, placed⟩ := (limited 1 (by decide)).2 onto
    obtain rfl : atLast = moved := Except.ok.inj placed
    exact jumped
  · have back : triple.jumpWithin atSeparator (-1) atLast ≠ .ok none := by
      rw [ne_eq, (limited (-1) (by decide)).1]
      decide
    exact (limited (-1) (by decide)).2 back

/-- From the separator, a limit at the separator does not lie between there and either of the
entries beside it. It stops the jumps to both all the same. -/
theorem limit_stopsAtStart :
    tripleSession.Reached ∧ tripleSession.dictionaries.get? "d" = some triple ∧
      tripleSession.bookmarks.get? "separator" = some atSeparator ∧
      triple.accepts atSeparator = true ∧ triple.offsetOf atSeparator = .ok 1 ∧
      (triple.Spans (1 + 1) ∧ ¬ LiesBetween 1 1 (1 + 1) ∧
        triple.jump atSeparator 1 = .ok atLast ∧
        triple.jumpWithin atSeparator 1 atSeparator = .ok none) ∧
      (triple.Spans (1 + -1) ∧ ¬ LiesBetween 1 1 (1 + -1) ∧
        triple.jumpWithin atSeparator (-1) atSeparator = .ok none) := by
  refine ⟨tripleSession_reached, triple_held, atSeparator_marked, rfl, rfl, ?_, ?_⟩
  · exact ⟨by decide, by decide, rfl, rfl⟩
  · exact ⟨by decide, by decide, rfl⟩

end DictionarySession

end CountedBTree
