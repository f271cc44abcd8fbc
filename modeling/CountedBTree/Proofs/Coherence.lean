import CountedBTree.Proofs.Bookmarks
import CountedBTree.Proofs.SessionSteps

/-!
# Coherent sessions

In a coherent session equal stamps mean equal contents: two dictionaries with one stamp are
equal, and a bookmark with the stamp of a dictionary marks an offset of it. Whatever a
dictionary of such a session issues then marks an offset again, also when it starts from a
bookmark that was issued long ago, by another dictionary with that stamp.
-/

namespace CountedBTree

namespace DictionarySession

variable {κ ν : Type} [Ord κ] [Footprint κ] [Footprint ν]

/-- Equal stamps mean equal contents. -/
structure Coherent (session : DictionarySession κ ν) : Prop where
  sound : ∀ {name held}, session.dictionaries.get? name = some held → held.tree.Sound
  agree : ∀ {name other held copy}, session.dictionaries.get? name = some held →
    session.dictionaries.get? other = some copy → held.state = copy.state → held = copy
  marks : ∀ {mark name bookmark held}, session.bookmarks.get? mark = some bookmark →
    session.dictionaries.get? name = some held → bookmark.state = held.state →
      ∃ offset, held.Marks bookmark offset

variable {session after : DictionarySession κ ν}

theorem empty_coherent : (empty : DictionarySession κ ν).Coherent where
  sound present := by simp [empty, Registers.empty, Registers.get?] at present
  agree present := by simp [empty, Registers.empty, Registers.get?] at present
  marks marked := by simp [empty, Registers.empty, Registers.get?] at marked

/-- A bookmark that a dictionary does not reject marks an offset of it. -/
theorem Coherent.marks_of_used (coherent : session.Coherent) {mark name : String}
    {bookmark : Bookmark κ ν} {held : Dictionary κ ν}
    (marked : session.bookmarks.get? mark = some bookmark)
    (present : session.dictionaries.get? name = some held) (used : ¬ held.Rejects bookmark) :
    ∃ offset, held.Marks bookmark offset :=
  coherent.marks marked present
    (Dictionary.accepts_iff.mp (Dictionary.accepts_of_not_rejects used)).1

/-- A jump that is answered marks an offset. -/
theorem Coherent.jump_marks (coherent : session.Coherent) {mark name : String}
    {here bookmark : Bookmark κ ν} {held : Dictionary κ ν} {steps : Int}
    (marked : session.bookmarks.get? mark = some here)
    (present : session.dictionaries.get? name = some held)
    (jumped : held.jump here steps = .ok bookmark) : ∃ offset, held.Marks bookmark offset := by
  obtain ⟨offset, marks⟩ := coherent.marks_of_used marked present
    (fun rejects => by simp [rejects.jump] at jumped)
  obtain ⟨there, _, marks⟩ := Dictionary.jump_marks (coherent.sound present) marks jumped
  exact ⟨there, marks⟩

/-- Whatever a dictionary issues marks an offset of it. -/
theorem Coherent.request_marks [Std.TransOrd κ] (coherent : session.Coherent) {name : String}
    {held : Dictionary κ ν} {wanted : BookmarkRequest κ} {bookmark : Bookmark κ ν}
    (present : session.dictionaries.get? name = some held)
    (issued : (session.request held wanted).outcome = .ok (some bookmark)) :
    ∃ offset, held.Marks bookmark offset := by
  have sound := coherent.sound present
  cases wanted with
  | start =>
    obtain ⟨start, answered, marks⟩ := Dictionary.startBookmark_marks sound
    simp only [request, answered, Traced.outcome_bind] at issued
    obtain ⟨⟩ := issued
    exact ⟨0, marks⟩
  | finish =>
    obtain ⟨⟩ := issued
    exact ⟨held.size, Dictionary.endBookmark_marks⟩
  | offset offset =>
    simp only [request, Traced.bind_eq_ok, Step.checked_eq_ok] at issued
    obtain ⟨_, answered, ⟨⟩⟩ := issued
    by_cases inside : offset ≤ held.size
    · obtain ⟨found, alsoAnswered, marks⟩ := Dictionary.bookmarkAt_marks sound inside
      obtain rfl : found = bookmark := Except.ok.inj (alsoAnswered.symm.trans answered)
      exact ⟨offset, marks⟩
    · simp [Dictionary.bookmarkAt, inside] at answered
  | key key =>
    obtain ⟨found, answered, marks⟩ := Dictionary.bookmarkOf_marks sound key
    simp only [request, answered] at issued
    obtain ⟨⟩ := issued
    exact ⟨_, marks bookmark rfl⟩
  | after mark =>
    simp only [request, Traced.bind_eq_ok, Registers.need_eq_ok, Step.checked_eq_ok] at issued
    obtain ⟨here, marked, moved, stepped, ⟨⟩⟩ := issued
    obtain ⟨offset, marks⟩ := coherent.marks_of_used marked present
      (fun rejects => by simp [rejects.after] at stepped)
    exact ⟨offset + 1, Dictionary.bookmarkAfter_marks sound marks stepped⟩
  | before mark =>
    simp only [request, Traced.bind_eq_ok, Registers.need_eq_ok, Step.checked_eq_ok] at issued
    obtain ⟨here, marked, moved, stepped, ⟨⟩⟩ := issued
    obtain ⟨offset, marks⟩ := coherent.marks_of_used marked present
      (fun rejects => by simp [rejects.before] at stepped)
    obtain ⟨previous, _, marks⟩ := Dictionary.bookmarkBefore_marks sound marks stepped
    exact ⟨previous, marks⟩
  | jump mark steps =>
    simp only [request, Traced.bind_eq_ok, Registers.need_eq_ok, Step.checked_eq_ok] at issued
    obtain ⟨here, marked, moved, jumped, ⟨⟩⟩ := issued
    exact coherent.jump_marks marked present jumped
  | jumpWithin mark steps limitMark =>
    simp only [request, Traced.bind_eq_ok, Registers.need_eq_ok, Step.checked_eq_ok] at issued
    obtain ⟨here, marked, limit, _, within⟩ := issued
    exact coherent.jump_marks marked present (Dictionary.jump_of_jumpWithin within)

end DictionarySession

end CountedBTree
