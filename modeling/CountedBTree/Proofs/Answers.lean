import CountedBTree.Proofs.Drains
import CountedBTree.Proofs.Preconditions

/-!
# Answers

An operation on a sound dictionary has an answer if what it is handed suits the dictionary.
Bookmarks that the dictionary accepts mark offsets of it, every offset has an entry, and every
key a place or none. Sweeps and drains have as many entries to give as they count. Only
writes and constructions may still be refused, for want of room in the machine.

A command of a session that breaks no precondition therefore finds its requests and questions
answered.
-/

namespace CountedBTree

variable {κ ν : Type}

/-- A list answers every script. -/
theorem TwoEnded.ofList_pullAll_answers {α : Type} (script : List Pull) (run : List α) :
    ∃ answers, TwoEnded.ofList.pullAll script run = .ok answers := by
  induction script generalizing run with
  | nil => exact ⟨[], rfl⟩
  | cons request script inductionHypothesis =>
    obtain ⟨answer, after, final, answered, _, _⟩ := pull_eq ofList_stands request (Eq.refl run)
    obtain ⟨answers, further⟩ := inductionHypothesis after
    exact ⟨answer :: answers, by simp [pullAll, answered, further]⟩

/-- Bookmarks of one state have an order. -/
theorem Bookmark.order_answers {left right : Bookmark κ ν} (same : left.sameState right = true) :
    ∃ order, left.order right = .ok order := by
  unfold Bookmark.order
  rw [if_pos same]
  cases left.place <;> cases right.place <;> exact ⟨_, rfl⟩

namespace Dictionary

variable [Ord κ]

/-- A change of the value of a key that is there is answered where it can be counted. -/
theorem change_answers [Footprint κ] [Footprint ν] [Std.TransOrd κ] {held : Dictionary κ ν}
    (sound : held.tree.Sound) (key : κ) (change : ν → ν) (stamp : Stamp)
    (counted : valueOf key held.tree.toList ≠ none → held.tree.checkGeneration = .ok ()) :
    ∃ changed, held.change key change stamp = .ok changed := by
  cases found : valueOf key held.tree.toList with
  | none => exact ⟨_, change_missed sound change stamp found⟩
  | some value =>
    obtain ⟨entry, first, _⟩ := Option.map_eq_some_iff.mp found
    obtain ⟨changed, ran, _⟩ :=
      (change_found sound change stamp first).answers (counted (by simp [found]))
    exact ⟨changed, ran⟩

end Dictionary

namespace DictionarySession

section Steps

variable {α β : Type}

variable {gate : Checked Unit} {run : Traced Fault α} {wanted : α → Prop} {cause : Fault}

/-- What follows a write is answered, if the gate of the write is open. -/
theorem traced_answers {next : α → Step β} (admits : gate.Admits run.outcome wanted)
    (free : gate = .ok ()) (goesOn : ∀ value, ∃ answer, (next value).outcome = .ok answer) :
    ∃ answer, ((liftM run : Step α) >>= next).outcome = .ok answer := by
  have lifted : (liftM run : Step α).outcome = run.outcome.mapError .fault := rfl
  obtain ⟨value, ran, _⟩ := admits.answers free
  rw [Traced.outcome_bind, lifted, ran]
  exact goesOn value

/-- Nothing follows a write whose gate is shut. -/
theorem traced_refused {next : α → Step β} (admits : gate.Admits run.outcome wanted)
    (shut : gate = .error cause) :
    ((liftM run : Step α) >>= next).outcome = .error (.fault cause) := by
  have lifted : (liftM run : Step α).outcome = run.outcome.mapError .fault := rfl
  rw [Traced.outcome_bind, lifted, admits.refuses shut]
  rfl

/-- What follows a checked operation is answered, if the operation is. -/
theorem checked_answers {checked : Checked α} {next : α → Step β}
    (ran : ∃ value, checked = .ok value)
    (goesOn : ∀ value, ∃ answer, (next value).outcome = .ok answer) :
    ∃ answer, ((liftM checked : Step α) >>= next).outcome = .ok answer := by
  obtain ⟨value, rfl⟩ := ran
  rw [lift_answered, pure_bind]
  exact goesOn value

end Steps

variable [Ord κ] {session : DictionarySession κ ν} {command : DictionaryCommand κ ν}
variable {name mark target : String} {held : Dictionary κ ν}

/-- Capacities asked for without breaking a precondition have room for a split. -/
theorem room_of_unbroken {capacities : Capacities}
    (unbroken : ∀ cause, ¬ session.Breaks (.create name capacities) cause) :
    2 ≤ capacities.leaf ∧ 2 ≤ capacities.branch := by
  have branchRoom : 2 ≤ capacities.branch := by
    by_contra small
    exact unbroken _ (.branchRoom (Nat.lt_of_not_le small))
  have leafRoom : 2 ≤ capacities.leaf := by
    by_contra small
    exact unbroken _ (.leafRoom branchRoom (Nat.lt_of_not_le small))
  exact ⟨leafRoom, branchRoom⟩

variable [SampleKey κ] [SampleValue ν]

/-- Bookmarks compared without breaking a precondition have an order. -/
theorem WellFormed.order_answers (wellFormed : session.WellFormed command)
    (unbroken : ∀ cause, ¬ session.Breaks command cause) {first second : String}
    (compares : command.Compares first second) (firstNamed : first ∈ command.bookmarks)
    (secondNamed : second ∈ command.bookmarks) :
    ∃ left right, session.bookmarks.get? first = some left ∧
      session.bookmarks.get? second = some right ∧ ∃ order, left.order right = .ok order := by
  obtain ⟨left, leftMarked⟩ := wellFormed.bookmarks first firstNamed
  obtain ⟨right, rightMarked⟩ := wellFormed.bookmarks second secondNamed
  cases same : left.sameState right with
  | true => exact ⟨left, right, leftMarked, rightMarked, Bookmark.order_answers same⟩
  | false =>
    exact absurd (.incomparable compares leftMarked rightMarked same) (unbroken _)

variable [Footprint κ] [Footprint ν]

/-- A bookmark handed to a dictionary without breaking a precondition marks an offset of it. -/
theorem WellFormed.marks (wellFormed : session.WellFormed command)
    (unbroken : ∀ cause, ¬ session.Breaks command cause) (coherent : session.Coherent)
    (relies : name ∈ command.dictionaries) (hands : mark ∈ command.bookmarks)
    (present : session.dictionaries.get? name = some held) :
    ∃ bookmark offset, session.bookmarks.get? mark = some bookmark ∧
      held.Marks bookmark offset := by
  obtain ⟨bookmark, marked⟩ := wellFormed.bookmarks mark hands
  cases accepted : held.accepts bookmark with
  | true =>
    obtain ⟨offset, marks⟩ := coherent.marks_of_accepts marked present accepted
    exact ⟨bookmark, offset, marked, marks⟩
  | false => exact absurd (.stale relies hands present marked accepted) (unbroken _)

variable [Std.TransOrd κ]

/-- A request that breaks no precondition is answered. -/
theorem request_answers {wanted : BookmarkRequest κ}
    (wellFormed : session.WellFormed (.issue name wanted target))
    (unbroken : ∀ cause, ¬ session.Breaks (.issue name wanted target) cause)
    (coherent : session.Coherent) (present : session.dictionaries.get? name = some held) :
    ∃ issued, (session.request held wanted).outcome = .ok issued := by
  have sound := coherent.sound present
  have handed {mark : String} (hands : mark ∈ wanted.bookmarks) :=
    wellFormed.marks unbroken coherent List.mem_cons_self hands present
  cases wanted with
  | start =>
    obtain ⟨start, issued, _⟩ := Dictionary.startBookmark_marks sound
    exact ⟨some start, by simp [request, issued]⟩
  | finish => exact ⟨some held.endBookmark, rfl⟩
  | offset offset =>
    have inside : offset ≤ held.size := by
      by_contra past
      exact unbroken _ (.pastEnd present (Nat.lt_of_not_le past))
    obtain ⟨there, issued, _⟩ := Dictionary.bookmarkAt_marks sound inside
    exact ⟨some there, by simp [request, issued]⟩
  | key key =>
    obtain ⟨found, issued, _⟩ := Dictionary.bookmarkOf_marks sound key
    exact ⟨found, by simp [request, issued]⟩
  | after mark =>
    obtain ⟨bookmark, offset, marked, marks⟩ := handed List.mem_cons_self
    rcases Dictionary.bookmarkAfter_cases sound marks with ⟨atEnd, _⟩ | ⟨_, moved, issued, _⟩
    · exact absurd (.atEnd ⟨rfl, rfl⟩ present marked marks.1 atEnd) (unbroken _)
    · exact ⟨some moved, by simp [request, need_eq marked, issued]⟩
  | before mark =>
    obtain ⟨bookmark, offset, marked, marks⟩ := handed List.mem_cons_self
    rcases Dictionary.bookmarkBefore_cases sound marks with ⟨rfl, _⟩ | ⟨_, moved, issued, _⟩
    · exact absurd (.atStart present marked (Dictionary.offsetOf_eq sound marks)) (unbroken _)
    · exact ⟨some moved, by simp [request, need_eq marked, issued]⟩
  | jump mark steps =>
    obtain ⟨bookmark, offset, marked, marks⟩ := handed List.mem_cons_self
    rcases Dictionary.jump_cases sound marks steps with ⟨outside, _⟩ | ⟨_, moved, issued⟩
    · have outside : offset + steps < 0 ∨ held.size < offset + steps := by omega
      exact absurd (.jump present marked (Dictionary.offsetOf_eq sound marks) outside) (unbroken _)
    · exact ⟨some moved, by simp [request, need_eq marked, issued]⟩
  | jumpWithin mark steps limitMark =>
    obtain ⟨bookmark, offset, marked, marks⟩ := handed List.mem_cons_self
    obtain ⟨limit, limitOffset, limitMarked, limitMarks⟩ :=
      handed (List.mem_cons_of_mem _ List.mem_cons_self)
    have counted := Dictionary.offsetOf_eq sound marks
    have limitCounted := Dictionary.offsetOf_eq sound limitMarks
    have toLimit := Dictionary.distance_eq sound marks limitMarks
    obtain ⟨issued, answered⟩ : ∃ issued, held.jumpWithin bookmark steps limit = .ok issued := by
      by_cases stopped : Dictionary.passes steps ((limitOffset : Int) - offset) = true
      · exact ⟨none, by simp [Dictionary.jumpWithin, toLimit, stopped]⟩
      · rcases Dictionary.jump_cases sound marks steps with ⟨outside, _⟩ | ⟨_, moved, jumped⟩
        · have unstopped : ¬ Stops offset limitOffset steps := by rwa [passes_iff] at stopped
          have outside : offset + steps < 0 ∨ held.size < offset + steps := by omega
          exact absurd (.jumpWithin present marked limitMarked counted limitCounted unstopped
            outside) (unbroken _)
        · exact ⟨some moved, by simp [Dictionary.jumpWithin, toLimit, stopped, jumped]⟩
    exact ⟨issued, by simp [request, need_eq marked, need_eq limitMarked, answered]⟩

variable [Listed κ] [Listed ν]

/-- A question that breaks no precondition is answered. -/
theorem answer_answers {query : DictionaryQuery κ}
    (wellFormed : session.WellFormed (.ask name query : DictionaryCommand κ ν))
    (unbroken : ∀ cause, ¬ session.Breaks (.ask name query) cause)
    (coherent : session.Coherent) (present : session.dictionaries.get? name = some held) :
    ∃ reply, (session.answer held query).outcome = .ok reply := by
  have sound := coherent.sound present
  have answers := Dictionary.answers_of_sound sound
  have handed {mark : String} (hands : mark ∈ query.bookmarks) :=
    wellFormed.marks unbroken coherent List.mem_cons_self hands present
  cases query with
  | offsetOf mark =>
    obtain ⟨bookmark, offset, marked, marks⟩ := handed List.mem_cons_self
    exact ⟨.number offset,
      by simp [answer, need_eq marked, Dictionary.offsetOf_eq sound marks]⟩
  | distance start stop =>
    obtain ⟨here, offset, hereMarked, hereMarks⟩ := handed List.mem_cons_self
    obtain ⟨there, otherOffset, thereMarked, thereMarks⟩ :=
      handed (List.mem_cons_of_mem _ List.mem_cons_self)
    exact ⟨.number (otherOffset - offset), by
      simp [answer, need_eq hereMarked, need_eq thereMarked,
        Dictionary.distance_eq sound hereMarks thereMarks]⟩
  | entryAtBookmark mark =>
    obtain ⟨bookmark, offset, marked, marks⟩ := handed List.mem_cons_self
    rcases Dictionary.entryAt_eq sound marks with ⟨atEnd, _⟩ | ⟨entry, _, shown⟩
    · have isEnd : bookmark.isEnd = true := by simp [Bookmark.isEnd, atEnd]
      exact absurd (.atEnd ⟨rfl, rfl⟩ present marked marks.1 isEnd) (unbroken _)
    · exact ⟨.entry (some entry), by simp [answer, need_eq marked, shown]⟩
  | walk steps backwards =>
    obtain ⟨sights, walked⟩ := Dictionary.walk_answers sound wellFormed.given backwards
    have some : steps ≠ 0 := Nat.ne_of_gt wellFormed.given
    exact ⟨.sights sights, by simp [answer, some, walked]⟩
  | extent => exact ⟨.extent held.size held.isEmpty, rfl⟩
  | find key => exact ⟨.value (valueOf key held.tree.toList), by simp [answer, answers.get]⟩
  | contains key =>
    exact ⟨.flag (valueOf key held.tree.toList).isSome, by simp [answer, answers.contains]⟩
  | get key =>
    cases found : valueOf key held.tree.toList with
    | none => exact absurd (.missingKey present found) (unbroken _)
    | some value =>
      exact ⟨.value (some value), by simp [answer, Dictionary.get, answers.get, found]⟩
  | min => exact ⟨.entry held.tree.toList.head?, by simp [answer, answers.min]⟩
  | max => exact ⟨.entry held.tree.toList.getLast?, by simp [answer, answers.max]⟩
  | entryAt offset => exact ⟨.entry held.tree.toList[offset]?, by simp [answer, answers.entryAt]⟩
  | entries => exact ⟨.entries held.tree.toList, by simp [answer, answers.gathered]⟩
  | listing lines => exact ⟨_, by simp only [answer, answers.gathered]; rfl⟩
  | sweep pulls =>
    obtain ⟨sweep, made, answered⟩ := answers.sweep pulls
    obtain ⟨pulled, given⟩ := TwoEnded.ofList_pullAll_answers pulls held.tree.toList
    exact ⟨.pulledEntries pulled, by simp [answer, made, answered, given]⟩
  | drain pulls =>
    obtain ⟨drain, made, answered⟩ := Tree.drain_pullAll sound pulls
    obtain ⟨pulled, given⟩ := TwoEnded.ofList_pullAll_answers pulls held.tree.toList
    exact ⟨.pulledEntries pulled, by simp [answer, made, answered, given]⟩
  | keys pulls =>
    obtain ⟨sweep, made, answered⟩ := answers.images Prod.fst pulls
    obtain ⟨pulled, given⟩ :=
      TwoEnded.ofList_pullAll_answers pulls (held.tree.toList.map Prod.fst)
    exact ⟨.pulledKeys pulled, by simp [answer, made, answered, given]⟩
  | values pulls =>
    obtain ⟨sweep, made, answered⟩ := answers.images Prod.snd pulls
    obtain ⟨pulled, given⟩ :=
      TwoEnded.ofList_pullAll_answers pulls (held.tree.toList.map Prod.snd)
    exact ⟨.pulledValues pulled, by simp [answer, made, answered, given]⟩
  | sweepBetween low high pulls =>
    obtain ⟨sweep, made, answered⟩ := answers.between low high pulls
    obtain ⟨pulled, given⟩ :=
      TwoEnded.ofList_pullAll_answers pulls (entriesBetween low high held.tree.toList)
    exact ⟨.pulledEntries pulled, by simp [answer, made, answered, given]⟩

end DictionarySession

end CountedBTree
