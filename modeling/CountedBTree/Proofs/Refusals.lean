import CountedBTree.Proofs.Answers
import CountedBTree.Proofs.DictionaryEquality

/-!
# What a session refuses

A well-formed command that keeps its preconditions is answered, unless it meets a limit of the
machine. No check inside an operation fails then, and none of the cases that are taken to be
impossible arises.

Nor does a place ever lead astray: followed from the root of the tree that handed it out, it is
reached again, with the node it holds. That goes for the places inside an operation and for
those that bookmarks keep.
-/

namespace CountedBTree

variable {κ ν : Type}

/-- Whether a cause belongs to a precondition of a command or to a limit of the machine. All
others stand for failed checks and impossible cases. -/
def Fault.isDeclared : Fault → Bool
  | capacityTooSmall _ | missingKey | staleBookmark | endBookmark | beforeStart
  | bookmarkOffsetOutOfRange | jumpOutOfRange | incomparableBookmarks => true
  | capacityTooLarge | sumTooLarge => true
  | _ => false

/-- The limits of the machine are declared. -/
theorem declared_of_isLimit {cause : Fault} (limit : cause.IsLimit) : cause.isDeclared = true := by
  rcases limit with rfl | rfl <;> rfl

/-- Room for a leaf is refused for a precondition or at a limit. -/
theorem declared_of_leaf [Footprint κ] [Footprint ν] {capacity : Nat} {cause : Fault}
    (shut : checkLeafCapacity κ ν capacity = .error cause) : cause.isDeclared = true := by
  by_cases several : 2 ≤ capacity
  · exact declared_of_isLimit (checkLeafCapacity_error several shut)
  · have few : ¬ minCapacity ≤ capacity := several
    simp only [checkLeafCapacity, few, ↓reduceIte] at shut
    obtain rfl := Except.error.inj shut
    rfl

/-! ## Places that are handed out -/

/-- Followed from the root, the place is reached again, with the node that it holds. -/
def Place.ReachedIn (root : Node κ ν) (place : Place κ ν) : Prop :=
  ∃ trail, place.trail root = .ok trail ∧ Place.ofTrail trail = some place

/-- A place that leads to an offset is reached again. -/
theorem Place.Leads.reachedIn {root : Node κ ν} {place : Place κ ν} {offset : Nat}
    (leads : place.Leads root offset) : place.ReachedIn root := by
  obtain ⟨trail, taken, leads⟩ := leads
  exact ⟨trail, leads.followed taken, taken⟩

namespace Tree

variable [Ord κ] {tree : Tree κ ν} {place : Place κ ν}

/-- The places that the operations on a tree hand out or keep to themselves: those at its ends,
at an offset and at a key, and from any of them the next one, the one before and those in the
same leaf. -/
inductive Issues (tree : Tree κ ν) : Place κ ν → Prop where
  | first {place : Place κ ν} (found : tree.firstPlace = .ok (some place)) : Issues tree place
  | last {place : Place κ ν} (found : tree.lastPlace = .ok (some place)) : Issues tree place
  | offset {place : Place κ ν} {offset : Nat} (found : tree.placeAt offset = .ok place) :
      Issues tree place
  | key {place : Place κ ν} {key : κ} (found : tree.findFirst key = .ok (some place)) :
      Issues tree place
  | advanced {place next : Place κ ν} (issued : Issues tree place)
      (moved : place.advanced tree.root = .ok (some next)) : Issues tree next
  | retreated {place previous : Place κ ν} (issued : Issues tree place)
      (moved : place.retreated tree.root = .ok (some previous)) : Issues tree previous
  | shifted {place there : Place κ ν} {steps : Int} (issued : Issues tree place)
      (moved : place.shiftedInLeaf steps = some there) : Issues tree there

/-- Every place that is handed out leads to an entry. -/
theorem Issues.leads [Footprint κ] [Footprint ν] [Std.TransOrd κ] (issued : tree.Issues place)
    (sound : tree.Sound) : ∃ offset, place.Leads tree.root offset := by
  obtain ⟨height, shaped⟩ := sound.shaped
  induction issued with
  | first found =>
    obtain ⟨start, answered, ⟨_, rfl⟩ | ⟨place, rfl, leads⟩⟩ := firstPlace_eq sound
    · exact absurd (found.symm.trans answered) (by simp)
    · obtain rfl := Option.some.inj (Except.ok.inj (found.symm.trans answered))
      exact ⟨_, leads⟩
  | last found =>
    obtain ⟨final, answered, ⟨_, rfl⟩ | ⟨place, rfl, leads⟩⟩ := lastPlace_eq sound
    · exact absurd (found.symm.trans answered) (by simp)
    · obtain rfl := Option.some.inj (Except.ok.inj (found.symm.trans answered))
      exact ⟨_, leads⟩
  | @offset place offset found =>
    have inside : offset < tree.size := by
      by_contra outside
      simp [placeAt, outside] at found
    obtain ⟨there, answered, leads⟩ := placeAt_leads sound inside
    obtain rfl := Except.ok.inj (found.symm.trans answered)
    exact ⟨_, leads⟩
  | @key place key found =>
    obtain ⟨first, answered, _, leads⟩ := findFirst_eq sound key
    exact ⟨_, leads place (Except.ok.inj (answered.symm.trans found))⟩
  | advanced issued moved inductionHypothesis =>
    obtain ⟨offset, leads⟩ := inductionHypothesis
    obtain ⟨after, stepped, ⟨_, rfl⟩ | ⟨next, rfl, leads⟩⟩ := leads.advanced_eq shaped
    · exact absurd (moved.symm.trans stepped) (by simp)
    · obtain rfl := Option.some.inj (Except.ok.inj (moved.symm.trans stepped))
      exact ⟨_, leads⟩
  | retreated issued moved inductionHypothesis =>
    obtain ⟨offset, leads⟩ := inductionHypothesis
    obtain ⟨before, stepped, ⟨_, rfl⟩ | ⟨_, previous, _, rfl, leads⟩⟩ :=
      leads.retreated_eq shaped
    · exact absurd (moved.symm.trans stepped) (by simp)
    · obtain rfl := Option.some.inj (Except.ok.inj (moved.symm.trans stepped))
      exact ⟨_, leads⟩
  | shifted issued moved inductionHypothesis =>
    obtain ⟨offset, leads⟩ := inductionHypothesis
    obtain ⟨there, _, leads⟩ := leads.shiftedInLeaf moved
    exact ⟨there, leads⟩

end Tree

/-! ## Commands -/

namespace DictionarySession

/-- A bookmark that a dictionary accepts is at the end, or keeps a place that the tree hands
out. -/
theorem Coherent.issues [Ord κ] [Footprint κ] [Footprint ν] {session : DictionarySession κ ν}
    {name mark : String} {held : Dictionary κ ν} {bookmark : Bookmark κ ν} {place : Place κ ν}
    (coherent : session.Coherent) (marked : session.bookmarks.get? mark = some bookmark)
    (present : session.dictionaries.get? name = some held)
    (accepted : held.accepts bookmark = true) (kept : bookmark.place = some place) :
    held.tree.Issues place := by
  obtain ⟨offset, _, ⟨atEnd, _⟩ | ⟨other, there, leads⟩⟩ :=
    coherent.marks_of_accepts marked present accepted
  · exact absurd (atEnd.symm.trans kept) (by simp)
  · obtain rfl := Option.some.inj (kept.symm.trans there)
    exact .offset (Tree.placeAt_eq (coherent.sound present) leads)

variable [Ord κ] [Footprint κ] [Footprint ν] [SampleKey κ] [SampleValue ν]
variable {session : DictionarySession κ ν} {command : DictionaryCommand κ ν}

/-- The causes that belong to a precondition or to a limit are none of those for failed checks
and impossible cases. -/
theorem declared_of_due {cause : Fault} (coherent : session.Coherent)
    (due : session.Breaks command cause ∨ session.Limit command cause) :
    cause.isDeclared = true := by
  have room : 2 ≤ Capacities.standard.leaf := by decide
  have several : 2 ≤ Capacities.standard.branch := by decide
  rcases due with breaks | limit
  · cases breaks <;> rfl
  · cases limit with
    | leaf shut => exact declared_of_leaf shut
    | built shut => exact declared_of_isLimit (Capacities.roomToBuild_error room several shut)
    | builtDistinct builds shut =>
      exact declared_of_isLimit (Capacities.roomToFill_error room several shut)
    | entries inserts present shut =>
      exact declared_of_isLimit
        (Capacities.roomAlong_error (coherent.sound present).branchRoom shut)
    | change present found shut => exact declared_of_isLimit (Tree.checkGeneration_error shut)
    | setValueAt present shut => exact declared_of_isLimit (Tree.checkGeneration_error shut)

variable [Std.TransOrd κ] [Listed κ] [Listed ν] [BEq κ] [BEq ν]

/-- A command that meets a limit, and breaks no precondition, is refused for the limit. -/
theorem Limit.refused {cause : Fault} (limit : session.Limit command cause)
    (wellFormed : session.WellFormed command)
    (unbroken : ∀ cause, ¬ session.Breaks command cause) (coherent : session.Coherent)
    (stamp : Stamp) :
    ((session.offer stamp).step command).outcome = .error (.fault cause) := by
  cases limit with
  | leaf shut =>
    obtain ⟨leafRoom, branchRoom⟩ := room_of_unbroken unbroken
    have refused := (Dictionary.empty_admits leafRoom branchRoom stamp).refuses shut
    simp [step, offer, refused]
  | @built name pairs cause shut => exact traced_refused (Dictionary.ofList_admits pairs stamp) shut
  | @builtDistinct _ pairs cause builds shut =>
    cases command with
    | buildDistinct name given =>
      obtain rfl := builds
      exact traced_refused (Dictionary.ofDistinct_admits pairs stamp) shut
    | buildSample name run =>
      have sampled : run.entries = .ok pairs := builds
      rw [step, sampled, lift_answered, pure_bind]
      exact traced_refused (Dictionary.ofDistinct_admits pairs stamp) shut
    | _ => exact builds.elim
  | @entries _ name pairs held cause inserts present shut =>
    have mapped := Dictionary.insertAll_admits pairs stamp (coherent.sound present) 0
    cases command with
    | insert target key value =>
      obtain ⟨rfl, rfl⟩ := inserts
      rw [Tree.roomToPut_single] at shut
      simp only [step, offer, need_eq present, pure_bind]
      exact traced_refused
        (Dictionary.insert_admits (coherent.sound present) key value stamp) shut
    | extend target given =>
      obtain ⟨rfl, rfl⟩ := inserts
      simp only [step, offer, need_eq present, pure_bind]
      exact traced_refused mapped shut
    | fill target run =>
      obtain ⟨rfl, sampled⟩ := inserts
      simp only [step, offer, need_eq present, pure_bind, sampled, lift_answered]
      exact traced_refused mapped shut
    | _ => exact inserts.elim
  | @change name key value held cause present found shut =>
    obtain ⟨old, there⟩ := Option.ne_none_iff_exists'.mp found
    obtain ⟨entry, first, _⟩ := Option.map_eq_some_iff.mp there
    have refused := (Dictionary.change_found (coherent.sound present)
      (fun old => value.getD old) stamp first).refuses shut
    simp [step, offer, need_eq present, refused]
  | @setValueAt name mark value held cause present shut =>
    obtain ⟨bookmark, offset, marked, marks⟩ :=
      wellFormed.marks unbroken coherent List.mem_cons_self List.mem_cons_self present
    rcases Dictionary.setValueAt_holds (coherent.sound present) marks value stamp with
      ⟨none, _⟩ | ⟨key, old, _, admits⟩
    · have atEnd : bookmark.isEnd = true := by simp [Bookmark.isEnd, none]
      exact absurd (.atEnd ⟨rfl, rfl⟩ present marked marks.1 atEnd) (unbroken _)
    · simp [step, offer, need_eq present, need_eq marked, admits.refuses shut]

/-- A well-formed command that breaks no precondition and meets no limit is answered. -/
theorem step_answers (wellFormed : session.WellFormed command)
    (unbroken : ∀ cause, ¬ session.Breaks command cause)
    (unlimited : ∀ cause, ¬ session.Limit command cause) (coherent : session.Coherent)
    (stamp : Stamp) :
    ∃ answer, ((session.offer stamp).step command).outcome = .ok answer := by
  cases command with
  | create name capacities =>
    obtain ⟨leafRoom, branchRoom⟩ := room_of_unbroken unbroken
    have free := Checked.open_of_never_shut (fun cause shut => unlimited cause (.leaf shut))
    obtain ⟨made, ran, _⟩ := (Dictionary.empty_admits leafRoom branchRoom stamp).answers free
    exact ⟨_, by simp only [step, offer, ran]; rfl⟩
  | build name pairs =>
    have free := Checked.open_of_never_shut (fun cause shut => unlimited cause (.built shut))
    exact traced_answers (Dictionary.ofList_admits pairs stamp) free (fun made => ⟨_, rfl⟩)
  | buildDistinct name pairs =>
    have free := Checked.open_of_never_shut (fun cause shut => unlimited cause (.builtDistinct rfl shut))
    exact traced_answers (Dictionary.ofDistinct_admits pairs stamp) free (fun made => ⟨_, rfl⟩)
  | buildSample name run =>
    obtain ⟨pairs, sampled⟩ := wellFormed.given
    have builds : DictionaryCommand.BuildsDistinct pairs (.buildSample name run) := sampled
    have free := Checked.open_of_never_shut (fun cause shut => unlimited cause (.builtDistinct builds shut))
    rw [step, sampled, lift_answered, pure_bind]
    exact traced_answers (Dictionary.ofDistinct_admits pairs stamp) free (fun made => ⟨_, rfl⟩)
  | copy name source =>
    obtain ⟨held, present⟩ := wellFormed.dictionaries source List.mem_cons_self
    exact ⟨_, by simp only [step, offer, need_eq present]; rfl⟩
  | insert name key value =>
    obtain ⟨held, present⟩ := wellFormed.dictionaries name List.mem_cons_self
    have free := Checked.open_of_never_shut
      (fun cause shut => unlimited cause (.entries ⟨rfl, rfl⟩ present shut))
    rw [Tree.roomToPut_single] at free
    simp only [step, offer, need_eq present, pure_bind]
    exact traced_answers (Dictionary.insert_admits (coherent.sound present) key value stamp) free
      (fun written => ⟨_, rfl⟩)
  | extend name pairs =>
    obtain ⟨held, present⟩ := wellFormed.dictionaries name List.mem_cons_self
    have free := Checked.open_of_never_shut
      (fun cause shut => unlimited cause (.entries ⟨rfl, rfl⟩ present shut))
    simp only [step, offer, need_eq present, pure_bind]
    exact traced_answers (Dictionary.insertAll_admits pairs stamp (coherent.sound present) 0) free
      (fun written => ⟨_, rfl⟩)
  | fill name run =>
    obtain ⟨held, present⟩ := wellFormed.dictionaries name List.mem_cons_self
    obtain ⟨pairs, sampled⟩ := wellFormed.given
    have free := Checked.open_of_never_shut
      (fun cause shut => unlimited cause (.entries ⟨rfl, sampled⟩ present shut))
    simp only [step, offer, need_eq present, pure_bind, sampled, lift_answered]
    exact traced_answers (Dictionary.insertAll_admits pairs stamp (coherent.sound present) 0) free
      (fun written => ⟨_, rfl⟩)
  | change name key value =>
    obtain ⟨held, present⟩ := wellFormed.dictionaries name List.mem_cons_self
    have counted (found : valueOf key held.tree.toList ≠ none) :=
      Checked.open_of_never_shut (fun cause shut => unlimited cause (.change present found shut))
    simp only [step, offer, need_eq present, pure_bind]
    refine checked_answers
      (Dictionary.change_answers (coherent.sound present) key _ stamp counted) ?_
    rintro (_ | ⟨old, written⟩) <;> exact ⟨_, rfl⟩
  | setValueAt name mark value =>
    obtain ⟨held, present⟩ := wellFormed.dictionaries name List.mem_cons_self
    obtain ⟨bookmark, offset, marked, marks⟩ :=
      wellFormed.marks unbroken coherent List.mem_cons_self List.mem_cons_self present
    have counted := Checked.open_of_never_shut
      (fun cause shut => unlimited cause (.setValueAt present shut))
    simp only [step, offer, need_eq present, need_eq marked, pure_bind]
    refine checked_answers ?_ (fun written => ⟨_, rfl⟩)
    rcases Dictionary.setValueAt_holds (coherent.sound present) marks value stamp with
      ⟨none, _⟩ | ⟨key, old, _, admits⟩
    · have atEnd : bookmark.isEnd = true := by simp [Bookmark.isEnd, none]
      exact absurd (.atEnd ⟨rfl, rfl⟩ present marked marks.1 atEnd) (unbroken _)
    · obtain ⟨answer, ran, _⟩ := admits.answers counted
      exact ⟨answer, ran⟩
  | clear name =>
    obtain ⟨held, present⟩ := wellFormed.dictionaries name List.mem_cons_self
    simp only [step, offer, need_eq present, pure_bind]
    obtain ⟨cleared, ran, _⟩ := Dictionary.cleared_holds (coherent.sound present) stamp
    exact checked_answers ⟨cleared, ran⟩ (fun cleared => ⟨_, rfl⟩)
  | issue name wanted target =>
    obtain ⟨held, present⟩ := wellFormed.dictionaries name List.mem_cons_self
    obtain ⟨issued, answered⟩ := request_answers wellFormed unbroken coherent present
    have here : (session.offer stamp).dictionaries.get? name = some held := present
    rw [step, need_eq here, pure_bind, Traced.outcome_bind, request_offer, answered,
      Checked.ok_bind]
    cases issued <;> exact ⟨_, rfl⟩
  | copyBookmark mark target =>
    obtain ⟨bookmark, marked⟩ := wellFormed.bookmarks mark List.mem_cons_self
    exact ⟨_, by simp only [step, offer, need_eq marked]; rfl⟩
  | orderBookmarks first second =>
    obtain ⟨left, right, leftMarked, rightMarked, order⟩ :=
      wellFormed.order_answers unbroken ⟨rfl, rfl⟩ List.mem_cons_self
        (List.mem_cons_of_mem _ List.mem_cons_self)
    simp only [step, offer, need_eq leftMarked, need_eq rightMarked, pure_bind]
    exact checked_answers order (fun order => ⟨_, rfl⟩)
  | equalBookmarks first second =>
    obtain ⟨left, right, leftMarked, rightMarked, order⟩ :=
      wellFormed.order_answers unbroken ⟨rfl, rfl⟩ List.mem_cons_self
        (List.mem_cons_of_mem _ List.mem_cons_self)
    simp only [step, offer, need_eq leftMarked, need_eq rightMarked, pure_bind]
    exact checked_answers order (fun order => ⟨_, rfl⟩)
  | same first second =>
    obtain ⟨left, present⟩ := wellFormed.dictionaries first List.mem_cons_self
    obtain ⟨right, rightPresent⟩ :=
      wellFormed.dictionaries second (List.mem_cons_of_mem _ List.mem_cons_self)
    exact ⟨_, by simp only [step, offer, need_eq present, need_eq rightPresent]; rfl⟩
  | equal first second =>
    obtain ⟨left, present⟩ := wellFormed.dictionaries first List.mem_cons_self
    obtain ⟨right, rightPresent⟩ :=
      wellFormed.dictionaries second (List.mem_cons_of_mem _ List.mem_cons_self)
    simp only [step, offer, need_eq present, need_eq rightPresent, pure_bind]
    obtain ⟨answer, compared, _⟩ :=
      Dictionary.equal_eq (coherent.sound present) (coherent.sound rightPresent)
    exact checked_answers ⟨answer, compared⟩ (fun answer => ⟨_, rfl⟩)
  | ask name query =>
    obtain ⟨held, present⟩ := wellFormed.dictionaries name List.mem_cons_self
    obtain ⟨reply, answered⟩ := answer_answers wellFormed unbroken coherent present
    have here : (session.offer stamp).dictionaries.get? name = some held := present
    rw [step, need_eq here, pure_bind, Traced.outcome_bind, answer_offer, answered,
      Checked.ok_bind]
    exact ⟨_, rfl⟩

/-- In every session that a run leads to, a well-formed command is refused for the precondition
it breaks, if it breaks one, for the limit of the machine it meets, if it meets one, and is
answered otherwise. In no case does a check inside an operation fail, and no impossible case
arises. Besides, every place that a tree hands out is reached again when it is followed, and so
are those that accepted bookmarks keep. -/
theorem refusals_areDeclared (reached : session.Reached) (wellFormed : session.WellFormed command)
    (stamp : Stamp) :
    (∀ cause, session.Breaks command cause →
      ((session.offer stamp).step command).outcome = .error (.fault cause)) ∧
    ((∀ cause, ¬ session.Breaks command cause) →
      (∀ cause, session.Limit command cause →
        ((session.offer stamp).step command).outcome = .error (.fault cause)) ∧
      ((∀ cause, ¬ session.Limit command cause) →
        ∃ answer, ((session.offer stamp).step command).outcome = .ok answer)) ∧
    (∀ refusal, ((session.offer stamp).step command).outcome = .error refusal →
      ∃ cause, refusal = .fault cause ∧ cause.isDeclared = true ∧
        (session.Breaks command cause ∨ session.Limit command cause)) ∧
    ∀ {name held}, session.dictionaries.get? name = some held →
      (∀ place, held.tree.Issues place → place.ReachedIn held.tree.root) ∧
      ∀ {mark bookmark place}, session.bookmarks.get? mark = some bookmark →
        held.accepts bookmark = true → bookmark.place = some place → held.tree.Issues place := by
  have coherent := reached.coherent
  refine ⟨?_, ?_, ?_, ?_⟩
  · intro cause breaks
    exact breaks.refused coherent wellFormed stamp
  · intro unbroken
    constructor
    · intro cause limit
      exact limit.refused wellFormed unbroken coherent stamp
    · intro unlimited
      exact step_answers wellFormed unbroken unlimited coherent stamp
  · intro refusal ran
    by_cases broken : ∃ cause, session.Breaks command cause
    · obtain ⟨cause, breaks⟩ := broken
      rw [breaks.refused coherent wellFormed stamp] at ran
      exact ⟨cause, (Except.error.inj ran).symm, declared_of_due coherent (.inl breaks),
        .inl breaks⟩
    · have unbroken := not_exists.mp broken
      by_cases limited : ∃ cause, session.Limit command cause
      · obtain ⟨cause, limit⟩ := limited
        rw [limit.refused wellFormed unbroken coherent stamp] at ran
        exact ⟨cause, (Except.error.inj ran).symm, declared_of_due coherent (.inr limit),
          .inr limit⟩
      · obtain ⟨answer, answered⟩ :=
          step_answers wellFormed unbroken (not_exists.mp limited) coherent stamp
        rw [answered] at ran
        contradiction
  · intro name held present
    constructor
    · intro place issued
      obtain ⟨offset, leads⟩ := issued.leads (coherent.sound present)
      exact leads.reachedIn
    · intro mark bookmark place marked accepted kept
      exact coherent.issues marked present accepted kept

/-- A bookmark from before a write is refused, and a key that is there is found. -/
theorem refusals_areDeclared_stale :
    let session := (empty : DictionarySession Int Int).attemptAll
      [.create "left" ⟨2, 2⟩, .insert "left" 1 10, .issue "left" .start "mark",
        .insert "left" 2 20]
    session.Reached ∧
      session.WellFormed (.ask "left" (.entryAtBookmark "mark")) ∧
      (session.step (.ask "left" (.entryAtBookmark "mark"))).outcome =
        .error (.fault .staleBookmark) ∧
      session.WellFormed (.ask "left" (.get 2)) ∧
      ∃ answer, (session.step (.ask "left" (.get 2))).outcome = .ok answer := by
  intro session
  have start : session.Reached ∧ session.Counts := attemptAll_reached _ .start empty_counts
  have present : session.dictionaries.get? "left" = some _ := rfl
  have marked : session.bookmarks.get? "mark" = some _ := rfl
  have asks : session.WellFormed (.ask "left" (.entryAtBookmark "mark")) :=
    ⟨fun name named => ⟨_, List.mem_singleton.mp named ▸ present⟩,
      fun mark named => ⟨_, List.mem_singleton.mp named ▸ marked⟩, trivial⟩
  have finds : session.WellFormed (.ask "left" (.get 2)) :=
    ⟨fun name named => ⟨_, List.mem_singleton.mp named ▸ present⟩,
      fun mark named => absurd named List.not_mem_nil, trivial⟩
  have unbroken : ∀ cause, ¬ session.Breaks (.ask "left" (.get 2)) cause := by
    intro cause breaks
    cases breaks with
    | missingKey held absent =>
      obtain rfl := Option.some.inj held
      exact absurd absent (by decide)
    | stale relies hands => exact absurd hands List.not_mem_nil
    | atEnd needs => exact needs
    | incomparable compares => exact compares
  have refused := (refusals_areDeclared start.1 asks session.fresh).1 _
    (.stale List.mem_cons_self List.mem_cons_self present marked rfl)
  have unlimited : ∀ cause, ¬ session.Limit (.ask "left" (.get 2)) cause := by
    intro cause limit
    cases limit with
    | builtDistinct builds => exact builds
    | entries inserts => exact inserts
  have answered := ((refusals_areDeclared start.1 finds session.fresh).2.1 unbroken).2 unlimited
  exact ⟨start.1, asks, refused, finds, answered⟩

/-- A node with more room than a piece of memory holds is refused, although nothing is wrong with
its capacity otherwise: at once for a leaf, and when the root splits for a branch. -/
theorem capacity_isLimited :
    let start : DictionarySession Int Int := empty
    let command : DictionaryCommand Int Int :=
      .create "left" (Capacities.uniform 0xffffffffffffffff)
    let session := start.attemptAll
      [.create "left" ⟨2, 0xffffffffffffffff⟩, .insert "left" 1 10, .insert "left" 2 20]
    start.Reached ∧ start.WellFormed command ∧ (∀ cause, ¬ start.Breaks command cause) ∧
      (start.step command).outcome = .error (.fault .capacityTooLarge) ∧
      session.Reached ∧ session.WellFormed (.insert "left" 3 30) ∧
      (∀ cause, ¬ session.Breaks (.insert "left" 3 30) cause) ∧
      (session.step (.insert "left" 3 30)).outcome = .error (.fault .capacityTooLarge) := by
  intro start command session
  have reached : session.Reached ∧ session.Counts := attemptAll_reached _ .start empty_counts
  have present : session.dictionaries.get? "left" = some _ := rfl
  have refused : (session.step (.insert "left" 3 30)).outcome =
      .error (.fault .capacityTooLarge) := by
    dsimp only [session]
    cbv
  refine ⟨.start, ⟨?_, ?_, trivial⟩, ?_, rfl, reached.1, ⟨?_, ?_, trivial⟩, ?_, refused⟩
  · intro name named
    exact absurd named List.not_mem_nil
  · intro mark named
    exact absurd named List.not_mem_nil
  · intro cause (breaks : start.Breaks (.create _ _) cause)
    cases breaks with
    | branchRoom small => exact absurd small (by decide)
    | leafRoom enough small => exact absurd small (by decide)
    | stale relies => exact absurd relies List.not_mem_nil
    | atEnd needs => exact needs
    | incomparable compares => exact compares
  · intro name named
    exact ⟨_, List.mem_singleton.mp named ▸ present⟩
  · intro mark named
    exact absurd named List.not_mem_nil
  · intro cause breaks
    cases breaks with
    | stale relies hands => exact absurd hands List.not_mem_nil
    | atEnd needs => exact needs
    | incomparable compares => exact compares

end DictionarySession

end CountedBTree
