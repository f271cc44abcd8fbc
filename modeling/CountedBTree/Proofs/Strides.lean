import CountedBTree.Proofs.BookmarkOrder

/-!
# Strides over a dictionary

Whether a step or a jump from a bookmark is answered depends on the offset it marks, and on
nothing else: forwards there has to be an entry, backwards one in front, and a jump has to end
inside the dictionary or at its end. What is answered marks the offset to go to.

A stride takes several such steps and stops at the end it heads for. It never asks for a step
that is refused, so walking a dictionary from end to end is always answered.
-/

namespace CountedBTree

variable {κ ν : Type}

namespace Dictionary

variable {dictionary : Dictionary κ ν} {bookmark start : Bookmark κ ν} {offset : Nat}

section Steps

variable [Ord κ] [Footprint κ] [Footprint ν]

/-- The end marks the size, and every other bookmark an offset below it. -/
theorem Marks.end_or_inside (marks : dictionary.Marks bookmark offset)
    (sound : dictionary.tree.Sound) :
    (bookmark.isEnd = true ∧ offset = dictionary.size) ∨
      bookmark.isEnd = false ∧ offset < dictionary.size := by
  obtain ⟨height, shaped⟩ := sound.shaped
  obtain ⟨_, ⟨atEnd, last⟩ | ⟨place, there, leads⟩⟩ := marks
  · exact .inl ⟨by simp [Bookmark.isEnd, atEnd], last⟩
  · have counted : dictionary.size = dictionary.tree.root.toList.length := shaped.total_eq
    exact .inr ⟨by simp [Bookmark.isEnd, there], counted ▸ leads.offset_lt shaped⟩

/-- No bookmark marks an offset behind the end. -/
theorem Marks.le_size (marks : dictionary.Marks bookmark offset)
    (sound : dictionary.tree.Sound) : offset ≤ dictionary.size := by
  rcases marks.end_or_inside sound with ⟨_, last⟩ | ⟨_, inside⟩
  · exact Nat.le_of_eq last
  · exact Nat.le_of_lt inside

/-- A step forwards is answered from every entry and refused at the end. -/
theorem bookmarkAfter_cases (sound : dictionary.tree.Sound)
    (marks : dictionary.Marks bookmark offset) :
    (bookmark.isEnd = true ∧ dictionary.bookmarkAfter bookmark = .error .endBookmark) ∨
      offset < dictionary.size ∧ ∃ moved, dictionary.bookmarkAfter bookmark = .ok moved ∧
        dictionary.Marks moved (offset + 1) := by
  obtain ⟨height, shaped⟩ := sound.shaped
  have known := marks
  obtain ⟨accepted, ⟨atEnd, last⟩ | ⟨place, there, leads⟩⟩ := marks
  · left
    exact ⟨by simp [Bookmark.isEnd, atEnd],
      by simp [bookmarkAfter, placeOf, validate, accepted, atEnd]⟩
  · right
    have counted : dictionary.size = dictionary.tree.root.toList.length := shaped.total_eq
    obtain ⟨next, advanced, _⟩ := leads.advanced_eq shaped
    have stepped : dictionary.bookmarkAfter bookmark = .ok (dictionary.issue next) := by
      simp [bookmarkAfter, placeOf, validate, accepted, there, advanced]
    exact ⟨counted ▸ leads.offset_lt shaped, _, stepped, bookmarkAfter_marks sound known stepped⟩

/-- A step backwards is answered from everywhere except offset zero. -/
theorem bookmarkBefore_cases (sound : dictionary.tree.Sound)
    (marks : dictionary.Marks bookmark offset) :
    (offset = 0 ∧ dictionary.bookmarkBefore bookmark = .error .beforeStart) ∨
      0 < offset ∧ ∃ moved, dictionary.bookmarkBefore bookmark = .ok moved ∧
        dictionary.Marks moved (offset - 1) := by
  obtain ⟨height, shaped⟩ := sound.shaped
  -- The step is answered if there is a place to go to, and then marks an offset one less.
  have answered (moved : Bookmark κ ν)
      (stepped : dictionary.bookmarkBefore bookmark = .ok moved) :
      0 < offset ∧ ∃ moved, dictionary.bookmarkBefore bookmark = .ok moved ∧
        dictionary.Marks moved (offset - 1) := by
    obtain ⟨previous, rfl, marksBefore⟩ := bookmarkBefore_marks sound marks stepped
    exact ⟨Nat.succ_pos _, moved, stepped, marksBefore⟩
  obtain ⟨accepted, ⟨atEnd, rfl⟩ | ⟨place, there, leads⟩⟩ := marks
  · obtain ⟨found, last, ⟨empty, rfl⟩ | ⟨place, rfl, _⟩⟩ := Tree.lastPlace_eq sound
    · left
      have none : dictionary.size = 0 := by
        rw [Dictionary.size, Tree.size_eq sound, empty, List.length_nil]
      exact ⟨none, by simp [bookmarkBefore, validate, accepted, atEnd, last]⟩
    · right
      exact answered (dictionary.issue (some place))
        (by simp [bookmarkBefore, validate, accepted, atEnd, last])
  · obtain ⟨found, retreated, ⟨first, rfl⟩ | ⟨before, previous, _, rfl, _⟩⟩ :=
      leads.retreated_eq shaped
    · left
      exact ⟨first, by simp [bookmarkBefore, validate, accepted, there, retreated]⟩
    · right
      exact answered (dictionary.issue (some previous))
        (by simp [bookmarkBefore, validate, accepted, there, retreated])

/-- A jump is answered if it ends inside the dictionary or at its end. -/
theorem jump_cases (sound : dictionary.tree.Sound) (marks : dictionary.Marks bookmark offset)
    (steps : Int) :
    (¬ (0 ≤ offset + steps ∧ offset + steps ≤ dictionary.size) ∧
        dictionary.jump bookmark steps = .error .jumpOutOfRange) ∨
      (0 ≤ offset + steps ∧ offset + steps ≤ dictionary.size) ∧
        ∃ moved, dictionary.jump bookmark steps = .ok moved := by
  have here := offsetOf_eq sound marks
  by_cases inside : 0 ≤ offset + steps ∧ offset + steps ≤ dictionary.size
  · right
    refine ⟨inside, ?_⟩
    simp only [jump, here, Checked.ok_bind, inside, and_self, ↓reduceIte]
    by_cases last : offset + steps = dictionary.size
    · exact ⟨_, by simp only [last, ↓reduceIte]; rfl⟩
    · cases shifted : bookmark.place.bind (fun place => place.shiftedInLeaf steps) with
      | some place => exact ⟨_, by simp only [last, ↓reduceIte]; rfl⟩
      | none =>
        have within : (offset + steps).toNat < dictionary.tree.size := by
          simp only [Dictionary.size] at inside last
          omega
        obtain ⟨place, found, _⟩ := Tree.placeAt_leads sound within
        exact ⟨_, by simp only [last, ↓reduceIte, found]; rfl⟩
  · left
    exact ⟨inside, by simp [jump, here, inside]⟩

/-! ## Strides -/

/-- What is at a bookmark of an entry can be seen. -/
theorem sight_eq (sound : dictionary.tree.Sound) (marks : dictionary.Marks bookmark offset)
    (inside : offset < dictionary.size) :
    ∃ entry, dictionary.tree.toList[offset]? = some entry ∧
      dictionary.sight bookmark = .ok (offset, entry) := by
  rcases entryAt_eq sound marks with ⟨_, last, _⟩ | ⟨entry, present, seen⟩
  · exact absurd inside (last ▸ Nat.lt_irrefl _)
  · exact ⟨entry, present, by simp [sight, offsetOf_eq sound marks, seen]⟩

/-- Steps forwards go as far as they are many, and not past the end. -/
theorem stepsAfter_marks (sound : dictionary.tree.Sound) (steps : Nat)
    (marks : dictionary.Marks bookmark offset) :
    ∃ moved, dictionary.stepsAfter steps bookmark = .ok moved ∧
      dictionary.Marks moved (min (offset + steps) dictionary.size) := by
  induction steps generalizing bookmark offset with
  | zero =>
    have within := marks.le_size sound
    exact ⟨bookmark, rfl, by rwa [Nat.add_zero, Nat.min_eq_left within]⟩
  | succ steps inductionHypothesis =>
    rcases marks.end_or_inside sound with ⟨atEnd, last⟩ | ⟨notEnd, inside⟩
    · have stays : min (offset + (steps + 1)) dictionary.size = offset := by omega
      exact ⟨bookmark, by simp [stepsAfter, atEnd], by rwa [stays]⟩
    · rcases bookmarkAfter_cases sound marks with ⟨atEnd, _⟩ | ⟨_, next, stepped, further⟩
      · exact absurd atEnd (by simp [notEnd])
      · obtain ⟨moved, reached, marksThere⟩ := inductionHypothesis further
        rw [Nat.add_assoc, Nat.add_comm 1] at marksThere
        exact ⟨moved, by simp [stepsAfter, notEnd, stepped, reached], marksThere⟩

/-- Steps backwards go as far as they are many, and not past the start. -/
theorem stepsBefore_marks (sound : dictionary.tree.Sound)
    (startMarks : dictionary.Marks start 0) (steps : Nat)
    (marks : dictionary.Marks bookmark offset) :
    ∃ moved, dictionary.stepsBefore start steps bookmark = .ok moved ∧
      dictionary.Marks moved (offset - steps) := by
  induction steps generalizing bookmark offset with
  | zero => exact ⟨bookmark, rfl, marks⟩
  | succ steps inductionHypothesis =>
    have ordered := order_eq sound marks startMarks
    rcases bookmarkBefore_cases sound marks with ⟨rfl, _⟩ | ⟨later, previous, stepped, before⟩
    · exact ⟨bookmark, by simp [stepsBefore, ordered], by rwa [Nat.zero_sub]⟩
    · obtain ⟨moved, reached, marksThere⟩ := inductionHypothesis before
      rw [Nat.sub_sub, Nat.add_comm 1] at marksThere
      have apart : offset ≠ 0 := Nat.ne_of_gt later
      exact ⟨moved, by simp [stepsBefore, ordered, apart, stepped, reached], marksThere⟩

/-- Strides forwards are answered from everywhere. -/
theorem strideForward_answers (sound : dictionary.tree.Sound) (steps strides : Nat)
    (marks : dictionary.Marks bookmark offset) :
    ∃ sights, dictionary.strideForward steps strides bookmark = .ok sights := by
  induction strides generalizing bookmark offset with
  | zero => exact ⟨[], rfl⟩
  | succ strides inductionHypothesis =>
    rcases marks.end_or_inside sound with ⟨atEnd, _⟩ | ⟨notEnd, inside⟩
    · exact ⟨[], by simp [strideForward, atEnd]⟩
    · obtain ⟨entry, _, seen⟩ := sight_eq sound marks inside
      obtain ⟨moved, reached, marksThere⟩ := stepsAfter_marks sound steps marks
      obtain ⟨more, answered⟩ := inductionHypothesis marksThere
      exact ⟨(offset, entry) :: more,
        by simp [strideForward, notEnd, seen, reached, answered]⟩

/-- Strides backwards are answered from everywhere. A stride of some steps ends at an entry,
because it begins behind one. -/
theorem strideBackward_answers (sound : dictionary.tree.Sound)
    (startMarks : dictionary.Marks start 0) {steps : Nat} (some : 0 < steps) (strides : Nat)
    (marks : dictionary.Marks bookmark offset) :
    ∃ sights, dictionary.strideBackward start steps strides bookmark = .ok sights := by
  induction strides generalizing bookmark offset with
  | zero => exact ⟨[], rfl⟩
  | succ strides inductionHypothesis =>
    have ordered := order_eq sound marks startMarks
    rcases Nat.eq_zero_or_pos offset with rfl | later
    · exact ⟨[], by simp [strideBackward, ordered]⟩
    · obtain ⟨moved, reached, marksThere⟩ := stepsBefore_marks sound startMarks steps marks
      have within := marks.le_size sound
      have inside : offset - steps < dictionary.size := by omega
      obtain ⟨entry, _, seen⟩ := sight_eq sound marksThere inside
      obtain ⟨more, answered⟩ := inductionHypothesis marksThere
      have apart : offset ≠ 0 := Nat.ne_of_gt later
      exact ⟨(offset - steps, entry) :: more,
        by simp [strideBackward, ordered, apart, reached, seen, answered]⟩

/-- A dictionary can be walked in strides of any positive length, in both directions. -/
theorem walk_answers (sound : dictionary.tree.Sound) {steps : Nat} (some : 0 < steps)
    (backwards : Bool) : ∃ sights, dictionary.walk steps backwards = .ok sights := by
  obtain ⟨start, started, startMarks⟩ := startBookmark_marks sound
  cases backwards with
  | true =>
    obtain ⟨sights, answered⟩ := strideBackward_answers sound startMarks some dictionary.size
      endBookmark_marks
    exact ⟨sights, by simp [walk, started, answered]⟩
  | false =>
    obtain ⟨sights, answered⟩ := strideForward_answers sound steps dictionary.size startMarks
    exact ⟨sights, by simp [walk, started, answered]⟩

end Steps

end Dictionary

end CountedBTree
