import CountedBTree.Dictionary.Bookmark
import CountedBTree.Proofs.Places

/-!
# What a bookmark marks

A bookmark that a dictionary accepts marks an offset of it: that of the entry its place
leads to, or the size at the end. Whatever a dictionary issues is accepted and marks the
offset asked for: the ends, an offset, the first entry with a key, and the offset one step
or a jump away from a bookmark that marks an offset already.

A bookmark says only by its stamp and generation which dictionary it belongs to. That its
place leads anywhere has to be known of the bookmarks an operation is given.
-/

namespace CountedBTree

variable {κ ν : Type}

namespace Dictionary

/-- The dictionary accepts the bookmark, which marks the given offset: that of an entry, or
the size. -/
def Marks (dictionary : Dictionary κ ν) (bookmark : Bookmark κ ν) (offset : Nat) : Prop :=
  dictionary.accepts bookmark = true ∧
    ((bookmark.place = none ∧ offset = dictionary.size) ∨
      ∃ place, bookmark.place = some place ∧ place.Leads dictionary.tree.root offset)

variable {dictionary : Dictionary κ ν} {bookmark moved : Bookmark κ ν} {offset : Nat}

/-- A dictionary accepts what it issues. -/
theorem accepts_issue (place : Option (Place κ ν)) :
    dictionary.accepts (dictionary.issue place) = true := by
  simp [accepts, issue]

/-- A dictionary accepts the bookmarks with its stamp and its generation. -/
theorem accepts_iff : dictionary.accepts bookmark = true ↔
    bookmark.state = dictionary.state ∧ bookmark.generation = dictionary.tree.generation := by
  simp [accepts]

/-- Every use of the bookmark is refused because it belongs to another state. -/
structure Rejects (dictionary : Dictionary κ ν) (bookmark : Bookmark κ ν) : Prop where
  offset : dictionary.offsetOf bookmark = .error .staleBookmark
  entry : dictionary.entryAt bookmark = .error .staleBookmark
  after : dictionary.bookmarkAfter bookmark = .error .staleBookmark
  before : dictionary.bookmarkBefore bookmark = .error .staleBookmark
  jump : ∀ steps, dictionary.jump bookmark steps = .error .staleBookmark
  write : ∀ value state, dictionary.setValueAt bookmark value state = .error .staleBookmark

/-- A dictionary rejects what it does not accept. -/
theorem rejects_of_not_accepts (refused : dictionary.accepts bookmark = false) :
    dictionary.Rejects bookmark where
  offset := by simp [offsetOf, validate, refused]
  entry := by simp [entryAt, placeOf, validate, refused]
  after := by simp [bookmarkAfter, placeOf, validate, refused]
  before := by simp [bookmarkBefore, validate, refused]
  jump steps := by simp [jump, offsetOf, validate, refused]
  write value state := by simp [setValueAt, placeOf, validate, refused]

/-- A bookmark is accepted if some use of it is answered. -/
theorem accepts_of_not_rejects (used : ¬ dictionary.Rejects bookmark) :
    dictionary.accepts bookmark = true := by
  cases accepted : dictionary.accepts bookmark with
  | true => rfl
  | false => exact absurd (rejects_of_not_accepts accepted) used

/-- A bookmark issued for a place marks the offset of the place. -/
theorem issue_marks {place : Place κ ν} (leads : place.Leads dictionary.tree.root offset) :
    dictionary.Marks (dictionary.issue (some place)) offset :=
  ⟨accepts_issue _, .inr ⟨place, rfl, leads⟩⟩

/-- The end marks the size. -/
theorem endBookmark_marks : dictionary.Marks dictionary.endBookmark dictionary.size :=
  ⟨accepts_issue _, .inl ⟨rfl, rfl⟩⟩

/-- A place found, or none for the end of the offsets before it. -/
theorem issue_marks_of {place : Option (Place κ ν)}
    (found : (place = none ∧ offset = dictionary.size) ∨
      ∃ there, place = some there ∧ there.Leads dictionary.tree.root offset) :
    dictionary.Marks (dictionary.issue place) offset :=
  ⟨accepts_issue _, found⟩

/-- A jump that was not stopped by its limit is a jump. -/
theorem jump_of_jumpWithin {steps : Int} {limit : Bookmark κ ν}
    (jumped : dictionary.jumpWithin bookmark steps limit = .ok (some moved)) :
    dictionary.jump bookmark steps = .ok moved := by
  obtain ⟨toLimit, _, within⟩ := Checked.bind_eq_ok.mp jumped
  by_cases stopped : passes steps toLimit = true
  · simp [stopped] at within
  · rw [if_neg stopped] at within
    obtain ⟨there, jumped, ⟨⟩⟩ := Checked.bind_eq_ok.mp within
    exact jumped

variable [Ord κ] [Footprint κ] [Footprint ν]

/-- The offset of a bookmark is the one it marks. -/
theorem offsetOf_eq (sound : dictionary.tree.Sound)
    (marks : dictionary.Marks bookmark offset) : dictionary.offsetOf bookmark = .ok offset := by
  obtain ⟨accepted, ⟨atEnd, rfl⟩ | ⟨place, there, leads⟩⟩ := marks
  · simp [Dictionary.offsetOf, validate, accepted, atEnd]
  · simp [Dictionary.offsetOf, validate, accepted, there, Tree.offsetOf_eq sound leads]

/-- The entry at a bookmark is the one at the offset it marks; the end has none. -/
theorem entryAt_eq (sound : dictionary.tree.Sound)
    (marks : dictionary.Marks bookmark offset) :
    (bookmark.place = none ∧ offset = dictionary.size ∧
        dictionary.entryAt bookmark = .error .endBookmark) ∨
      ∃ entry, dictionary.tree.toList[offset]? = some entry ∧
        dictionary.entryAt bookmark = .ok entry := by
  obtain ⟨height, shaped⟩ := sound.shaped
  obtain ⟨accepted, ⟨atEnd, rfl⟩ | ⟨place, there, leads⟩⟩ := marks
  · left
    exact ⟨atEnd, rfl, by simp [Dictionary.entryAt, placeOf, validate, accepted, atEnd]⟩
  · right
    obtain ⟨trail, followed, leads⟩ := leads.trail_eq
    obtain ⟨entry, present, found⟩ := leads.entry_eq shaped
    exact ⟨entry, present, by
      simp [Dictionary.entryAt, placeOf, validate, accepted, there, followed, found]⟩

/-! ## Issuing -/

/-- The start marks offset zero. -/
theorem startBookmark_marks (sound : dictionary.tree.Sound) :
    ∃ start, dictionary.startBookmark = .ok start ∧ dictionary.Marks start 0 := by
  obtain ⟨found, answered, ⟨empty, rfl⟩ | ⟨place, rfl, leads⟩⟩ := Tree.firstPlace_eq sound
  · have zero : dictionary.size = 0 := by
      rw [Dictionary.size, Tree.size_eq sound, empty]
      rfl
    exact ⟨_, by simp [startBookmark, answered], issue_marks_of (.inl ⟨rfl, zero.symm⟩)⟩
  · exact ⟨_, by simp [startBookmark, answered], issue_marks leads⟩

/-- The bookmark at an offset marks it. -/
theorem bookmarkAt_marks (sound : dictionary.tree.Sound) (inside : offset ≤ dictionary.size) :
    ∃ there, dictionary.bookmarkAt offset = .ok there ∧ dictionary.Marks there offset := by
  by_cases last : offset = dictionary.size
  · subst last
    exact ⟨_, by simp [bookmarkAt], endBookmark_marks⟩
  · have within : offset < dictionary.tree.size := Nat.lt_of_le_of_ne inside last
    obtain ⟨place, found, leads⟩ := Tree.placeAt_leads sound within
    exact ⟨_, by simp [bookmarkAt, inside, last, found], issue_marks leads⟩

/-- The bookmark of a key marks the first equal entry, if there is one. -/
theorem bookmarkOf_marks [Std.TransOrd κ] (sound : dictionary.tree.Sound) (key : κ) :
    ∃ found, dictionary.bookmarkOf key = .ok found ∧ ∀ there, found = some there →
      dictionary.Marks there (countBelow key dictionary.tree.toList) := by
  obtain ⟨found, answered, _, leads⟩ := Tree.findFirst_eq sound key
  refine ⟨found.map (fun place => dictionary.issue (some place)), ?_, ?_⟩
  · simp [bookmarkOf, answered]
  · intro there issued
    cases found with
    | none => simp at issued
    | some place =>
      obtain rfl := Option.some.inj issued
      exact issue_marks (leads place rfl)

/-- A step forwards from a bookmark of an entry marks the next offset. -/
theorem bookmarkAfter_marks (sound : dictionary.tree.Sound)
    (marks : dictionary.Marks bookmark offset)
    (stepped : dictionary.bookmarkAfter bookmark = .ok moved) :
    dictionary.Marks moved (offset + 1) := by
  obtain ⟨height, shaped⟩ := sound.shaped
  obtain ⟨accepted, ⟨atEnd, rfl⟩ | ⟨place, there, leads⟩⟩ := marks
  · simp [bookmarkAfter, placeOf, validate, accepted, atEnd] at stepped
  · obtain ⟨next, advanced, further⟩ := leads.advanced_eq shaped
    obtain rfl : dictionary.issue next = moved := by
      simpa [bookmarkAfter, placeOf, validate, accepted, there, advanced] using stepped
    apply issue_marks_of
    rcases further with ⟨last, rfl⟩ | further
    · left
      have counted : dictionary.size = dictionary.tree.root.toList.length := shaped.total_eq
      exact ⟨rfl, by omega⟩
    · exact .inr further

/-- A step backwards from a bookmark marks the offset before. -/
theorem bookmarkBefore_marks (sound : dictionary.tree.Sound)
    (marks : dictionary.Marks bookmark offset)
    (stepped : dictionary.bookmarkBefore bookmark = .ok moved) :
    ∃ previous, offset = previous + 1 ∧ dictionary.Marks moved previous := by
  obtain ⟨height, shaped⟩ := sound.shaped
  obtain ⟨accepted, ⟨atEnd, rfl⟩ | ⟨place, there, leads⟩⟩ := marks
  · obtain ⟨found, answered, ⟨_, rfl⟩ | ⟨last, rfl, leads⟩⟩ := Tree.lastPlace_eq sound
    · simp [bookmarkBefore, validate, accepted, atEnd, answered] at stepped
    · obtain rfl : dictionary.issue (some last) = moved := by
        simpa [bookmarkBefore, validate, accepted, atEnd, answered] using stepped
      have inside := leads.offset_lt shaped
      have counted : dictionary.size = dictionary.tree.toList.length := shaped.total_eq
      refine ⟨dictionary.tree.toList.length - 1, ?_, issue_marks leads⟩
      simp only [Tree.toList] at counted inside ⊢
      omega
  · obtain ⟨found, answered, ⟨_, rfl⟩ | ⟨before, previous, rfl, rfl, leadsBefore⟩⟩ :=
      leads.retreated_eq shaped
    · simp [bookmarkBefore, validate, accepted, there, answered] at stepped
    · obtain rfl : dictionary.issue (some previous) = moved := by
        simpa [bookmarkBefore, validate, accepted, there, answered] using stepped
      exact ⟨before, rfl, issue_marks leadsBefore⟩

/-- A jump marks the offset as far away as the jump. -/
theorem jump_marks (sound : dictionary.tree.Sound) (marks : dictionary.Marks bookmark offset)
    {steps : Int} (jumped : dictionary.jump bookmark steps = .ok moved) :
    ∃ there : Nat, (there : Int) = offset + steps ∧ dictionary.Marks moved there := by
  have here := offsetOf_eq sound marks
  by_cases inside : (0 : Int) ≤ offset + steps ∧ (offset : Int) + steps ≤ dictionary.size
  · simp only [jump, here, Checked.ok_bind, inside, and_self, ↓reduceIte] at jumped
    by_cases last : (offset : Int) + steps = dictionary.size
    · obtain rfl : dictionary.endBookmark = moved := by simpa [last] using jumped
      exact ⟨dictionary.size, last.symm, endBookmark_marks⟩
    · cases shifted : bookmark.place.bind (fun place => place.shiftedInLeaf steps) with
      | some place =>
        obtain rfl : dictionary.issue (some place) = moved := by
          simpa [last, shifted] using jumped
        obtain ⟨start, atStart, shifted⟩ := Option.bind_eq_some_iff.mp shifted
        rcases marks.2 with ⟨atEnd, _⟩ | ⟨place, there, leads⟩
        · simp [atEnd] at atStart
        · obtain rfl : place = start := Option.some.inj (there.symm.trans atStart)
          obtain ⟨target, reached, leads⟩ := leads.shiftedInLeaf shifted
          exact ⟨target, reached, issue_marks leads⟩
      | none =>
        obtain ⟨place, found, leads⟩ := Tree.placeAt_leads sound
          (show ((offset : Int) + steps).toNat < dictionary.tree.size by
            simp only [Dictionary.size] at inside last
            omega)
        obtain rfl : dictionary.issue (some place) = moved := by
          simpa [last, shifted, found] using jumped
        exact ⟨((offset : Int) + steps).toNat, by omega, issue_marks leads⟩
  · simp [jump, here, inside] at jumped

end Dictionary

end CountedBTree
