import CountedBTree.Proofs.FreeStamps
import CountedBTree.Proofs.MapRuns
import CountedBTree.Scalar.Sample

/-!
# Equality of dictionaries

Two dictionaries are compared entry by entry, along their lists and not along their trees, so
capacities and histories have no part in it. Equality of keys and values may be partial: a
missing reading does not equal itself.

Dictionaries that hold one root are equal without being looked at. In a session they have the
same entries then, but these need not equal themselves, and that is the only case in which
the answer differs from that of the comparison.
-/

namespace CountedBTree

variable {κ ν : Type} [BEq κ] [BEq ν]

/-- Two runs of entries are equally long, with equal keys and equal values throughout. -/
structure SameEntries (left right : List (κ × ν)) : Prop where
  length_eq : left.length = right.length
  entry_eq : ∀ (offset : Nat) (first second : κ × ν), left[offset]? = some first →
    right[offset]? = some second → (first.1 == second.1) = true ∧ (first.2 == second.2) = true

namespace SameEntries

variable {first second : κ × ν} {left right entries : List (κ × ν)}

/-- A comparison of runs begins with their first entries. -/
theorem cons_iff : SameEntries (first :: left) (second :: right) ↔
    ((first.1 == second.1) = true ∧ (first.2 == second.2) = true) ∧ SameEntries left right := by
  constructor
  · intro same
    constructor
    · exact same.entry_eq 0 first second rfl rfl
    · constructor
      · simpa using same.length_eq
      · exact fun offset => same.entry_eq (offset + 1)
  · rintro ⟨equal, same⟩
    constructor
    · simpa using same.length_eq
    · intro offset earlier later atLeft atRight
      cases offset with
      | zero =>
        obtain rfl : first = earlier := by simpa using atLeft
        obtain rfl : second = later := by simpa using atRight
        exact equal
      | succ offset => exact same.entry_eq offset earlier later atLeft atRight

/-- Comparing the lists decides whether the entries are the same. -/
theorem beq_iff (left right : List (κ × ν)) : (left == right) = true ↔ SameEntries left right := by
  induction left generalizing right with
  | nil =>
    cases right with
    | nil => exact ⟨fun _ => ⟨rfl, by simp⟩, fun _ => rfl⟩
    | cons second right =>
      constructor
      · intro equal
        contradiction
      · intro same
        exact absurd same.length_eq (by simp)
  | cons first left inductionHypothesis =>
    cases right with
    | nil =>
      constructor
      · intro equal
        contradiction
      · intro same
        exact absurd same.length_eq (by simp)
    | cons second right =>
      rw [cons_iff, ← inductionHypothesis, List.cons_beq_cons, Bool.and_eq_true]
      exact and_congr_left' (Bool.and_eq_true_iff)

/-- A run has the same entries as itself exactly when every entry equals itself. -/
theorem self_iff : SameEntries entries entries ↔
    ∀ entry ∈ entries, (entry.1 == entry.1) = true ∧ (entry.2 == entry.2) = true := by
  constructor
  · intro same entry member
    obtain ⟨offset, found⟩ := List.mem_iff_getElem?.mp member
    exact same.entry_eq offset entry entry found found
  · intro reflexive
    constructor
    · rfl
    · intro offset first second atLeft atRight
      obtain rfl : first = second := Option.some.inj (atLeft.symm.trans atRight)
      exact reflexive first (List.mem_of_getElem? atLeft)

end SameEntries

namespace Dictionary

variable [Ord κ] [Footprint κ] [Footprint ν] [Std.TransOrd κ] {first second : Dictionary κ ν}

/-- Sound dictionaries are equal when they hold one root or have the same entries. -/
theorem equal_eq (sound : first.tree.Sound) (otherSound : second.tree.Sound) :
    ∃ answer, first.equal second = .ok answer ∧
      (answer = true ↔ first.sameRoot second = true ∨
        SameEntries first.tree.toList second.tree.toList) := by
  have gathered := (answers_of_sound sound).gathered
  have otherGathered := (answers_of_sound otherSound).gathered
  unfold Dictionary.equal
  by_cases shared : first.sameRoot second = true
  · exact ⟨true, if_pos shared, by simp [shared]⟩
  · rw [if_neg shared]
    by_cases apart : (first.size != second.size) = true
    · refine ⟨false, if_pos apart, ?_⟩
      have different : first.tree.toList.length ≠ second.tree.toList.length := by
        rw [← Tree.size_eq sound, ← Tree.size_eq otherSound]
        simpa [Dictionary.size] using apart
      have distinct : ¬ SameEntries first.tree.toList second.tree.toList :=
        fun same => different same.length_eq
      simp [shared, distinct]
    · refine ⟨first.tree.toList == second.tree.toList, ?_, ?_⟩
      · rw [if_neg apart, gathered, otherGathered]
        rfl
      · simp [shared, SameEntries.beq_iff]

end Dictionary

namespace DictionarySession

variable [Ord κ] [Footprint κ] [Footprint ν] [Std.TransOrd κ] [SampleKey κ] [SampleValue ν]
variable [Listed κ] [Listed ν]
variable {session : DictionarySession κ ν}

/-- In every session that a run leads to, any two dictionaries are compared. They are found
equal when they hold one root or have the same entries. Holding one root makes their entries
identical, so the answer is that of comparing the entries unless the two hold one root and
have an entry that does not equal itself. -/
theorem equal_isPointwise (reached : session.Reached) {name other : String}
    {first second : Dictionary κ ν} (present : session.dictionaries.get? name = some first)
    (otherPresent : session.dictionaries.get? other = some second) :
    ∃ left right answer, first.entries = .ok left ∧ second.entries = .ok right ∧
      first.equal second = .ok answer ∧
      (answer = true ↔ first.sameRoot second = true ∨ SameEntries left right) ∧
      (first.sameRoot second = true → left = right) ∧
      ((answer = true ↔ SameEntries left right) ↔
        (first.sameRoot second = true →
          ∀ entry ∈ left, (entry.1 == entry.1) = true ∧ (entry.2 == entry.2) = true)) := by
  have coherent := reached.coherent
  have sound := coherent.sound present
  have otherSound := coherent.sound otherPresent
  obtain ⟨answer, compared, decides⟩ := Dictionary.equal_eq sound otherSound
  have identical : first.sameRoot second = true → first.tree.toList = second.tree.toList := by
    intro shared
    have stamps : first.state = second.state := by simpa [Dictionary.sameRoot] using shared
    rw [coherent.agree present otherPresent stamps]
  refine ⟨_, _, answer, (Dictionary.answers_of_sound sound).gathered,
    (Dictionary.answers_of_sound otherSound).gathered, compared, decides, identical, ?_⟩
  rw [decides, ← SameEntries.self_iff]
  constructor
  · intro exact shared
    have same := exact.mp (.inl shared)
    rwa [← identical shared] at same
  · intro reflexive
    constructor
    · rintro (shared | same)
      · rw [← identical shared]
        exact reflexive shared
      · exact same
    · exact .inr

/-- Two dictionaries of different shape and history are equal. -/
theorem equal_isPointwise_shapes :
    let session := (empty : DictionarySession Int Int).attemptAll
      [.create "flat" ⟨4, 4⟩, .extend "flat" [(1, 10), (2, 20), (3, 30)],
        .create "deep" ⟨2, 2⟩, .extend "deep" [(3, 0), (2, 20), (1, 10), (3, 30)]]
    session.Reached ∧ ∃ flat deep, session.dictionaries.get? "flat" = some flat ∧
      session.dictionaries.get? "deep" = some deep ∧ flat.tree.root.isLeaf = true ∧
      deep.tree.root.isLeaf = false ∧ flat.equal deep = .ok true := by
  intro session
  have start : session.Reached ∧ session.Counts := attemptAll_reached _ .start empty_counts
  have present : session.dictionaries.get? "flat" =
      some ⟨⟨.leaf 4 3 [(1, 10), (2, 20), (3, 30)], ⟨4, 4⟩, 3⟩, ⟨1⟩⟩ := by
    dsimp only [session]
    cbv
  have otherPresent : session.dictionaries.get? "deep" =
      some ⟨⟨.branch 2 3 [(2, 20)] [.leaf 2 1 [(1, 10)], .leaf 2 1 [(3, 30)]], ⟨2, 2⟩, 4⟩,
        ⟨3⟩⟩ := by
    dsimp only [session]
    cbv
  obtain ⟨left, right, answer, gathered, otherGathered, compared, decides, _⟩ :=
    equal_isPointwise start.1 present otherPresent
  obtain rfl : [(1, 10), (2, 20), (3, 30)] = left := Except.ok.inj gathered
  obtain rfl : [(1, 10), (2, 20), (3, 30)] = right := Except.ok.inj otherGathered
  have same : SameEntries [((1 : Int), (10 : Int)), (2, 20), (3, 30)] [(1, 10), (2, 20), (3, 30)] :=
    (SameEntries.beq_iff _ _).mp rfl
  rw [decides.mpr (.inr same)] at compared
  exact ⟨start.1, _, _, present, otherPresent, rfl, rfl, compared⟩

/-- A missing reading equals nothing, so a dictionary that holds one has not the same entries
as itself. It equals a copy all the same, and it does not equal a dictionary with the same
contents that was built apart. -/
theorem equal_missesPartial :
    let session := (empty : DictionarySession Int Reading).attemptAll
      [.create "first" ⟨2, 2⟩, .insert "first" 1 .missing, .copy "copy" "first",
        .create "apart" ⟨2, 2⟩, .insert "apart" 1 .missing]
    session.Reached ∧ ∃ first copy apart, session.dictionaries.get? "first" = some first ∧
      session.dictionaries.get? "copy" = some copy ∧
      session.dictionaries.get? "apart" = some apart ∧
      first.entries = .ok [(1, .missing)] ∧ copy.entries = .ok [(1, .missing)] ∧
      apart.entries = .ok [(1, .missing)] ∧
      ¬ SameEntries [((1 : Int), Reading.missing)] [(1, .missing)] ∧
      first.equal copy = .ok true ∧ first.equal apart = .ok false := by
  intro session
  have start : session.Reached ∧ session.Counts := attemptAll_reached _ .start empty_counts
  refine ⟨start.1, _, _, _, rfl, rfl, rfl, rfl, rfl, rfl, ?_, rfl, rfl⟩
  rw [← SameEntries.beq_iff]
  exact Bool.false_ne_true

end DictionarySession

end CountedBTree
