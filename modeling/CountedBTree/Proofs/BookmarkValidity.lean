import CountedBTree.Proofs.FreeStamps

/-!
# Validity of bookmarks

A bookmark is worth something until the dictionary that issued it is written to. `Lineage`
follows that dictionary through a run, from name to name when it is copied, and says whether
it was written to on the way. However the run goes on elsewhere, a dictionary of the lineage
accepts the bookmark if it was not written to, and rejects it in every use if it was.

A bookmark is never accepted in error either: any dictionary that accepts it holds what the
one that issued it held then, and finds the same entry at the same offset.
-/

namespace CountedBTree

namespace DictionarySession

variable {κ ν : Type} [Ord κ] [Footprint κ] [Footprint ν] [SampleKey κ] [SampleValue ν] [BEq κ]
variable [BEq ν] [Listed κ] [Listed ν]

/-- Some name stands for the bookmark. -/
def Keeps (session : DictionarySession κ ν) (bookmark : Bookmark κ ν) : Prop :=
  ∃ mark, session.bookmarks.get? mark = some bookmark

/-- The sessions that a run leads to from a session while it keeps a bookmark. -/
inductive Keeping (bookmark : Bookmark κ ν) (start : DictionarySession κ ν) :
    DictionarySession κ ν → Prop where
  | here (kept : start.Keeps bookmark) : Keeping bookmark start start
  | move {session after : DictionarySession κ ν} {command : DictionaryCommand κ ν}
      {reply : Reply κ ν} (before : Keeping bookmark start session)
      (moves : session.Moves command reply after) (kept : after.Keeps bookmark) :
      Keeping bookmark start after

/-- A run that keeps a bookmark hands on the dictionary of one name of the session it starts
from: by leaving it alone, by copying it, and by writing to it. The flag says whether it was
written to. -/
inductive Lineage (bookmark : Bookmark κ ν) (start : DictionarySession κ ν) (origin : String) :
    Bool → DictionarySession κ ν → String → Prop where
  | here (kept : start.Keeps bookmark) : Lineage bookmark start origin false start origin
  | aside {written : Bool} {session after : DictionarySession κ ν} {name : String}
      {command : DictionaryCommand κ ν} {reply : Reply κ ν}
      (before : Lineage bookmark start origin written session name)
      (moves : session.Moves command reply after) (kept : after.Keeps bookmark)
      (apart : ¬ command.Makes name) (unwritten : ¬ command.Writes session name)
      (uncopied : ¬ command.Copies name) : Lineage bookmark start origin written after name
  | copied {written : Bool} {session after : DictionarySession κ ν} {name other : String}
      {reply : Reply κ ν} (before : Lineage bookmark start origin written session name)
      (moves : session.Moves (.copy other name) reply after) (kept : after.Keeps bookmark) :
      Lineage bookmark start origin written after other
  | wrote {written : Bool} {session after : DictionarySession κ ν} {name : String}
      {command : DictionaryCommand κ ν} {reply : Reply κ ν}
      (before : Lineage bookmark start origin written session name)
      (moves : session.Moves command reply after) (kept : after.Keeps bookmark)
      (writes : command.Writes session name) : Lineage bookmark start origin true after name

variable {session after final : DictionarySession κ ν} {command : DictionaryCommand κ ν}
variable {reply : Reply κ ν} {bookmark : Bookmark κ ν} {name : String}

/-- A lineage is followed along a run that keeps the bookmark. -/
theorem Lineage.keeping {origin : String} {written : Bool}
    (lineage : Lineage bookmark session origin written final name) :
    Keeping bookmark session final := by
  induction lineage with
  | here kept => exact .here kept
  | aside before moves kept _ _ _ inductionHypothesis => exact .move inductionHypothesis moves kept
  | copied before moves kept inductionHypothesis => exact .move inductionHypothesis moves kept
  | wrote before moves kept _ inductionHypothesis => exact .move inductionHypothesis moves kept

/-- The bookmark is there at the end. -/
theorem Keeping.keeps (keeping : Keeping bookmark session final) : final.Keeps bookmark := by
  cases keeping with
  | here kept => exact kept
  | move _ _ kept => exact kept

/-- A run can be continued while keeping a bookmark. -/
theorem Keeping.reached (keeping : Keeping bookmark session final) (reached : session.Reached) :
    final.Reached := by
  induction keeping with
  | here => exact reached
  | move _ moves _ inductionHypothesis => exact inductionHypothesis.move moves

/-! ## One move -/

/-- A dictionary that a move does not concern stays under its name. -/
theorem Moves.get_aside [Std.TransOrd κ] (moves : session.Moves command reply after)
    (coherent : session.Coherent) {held : Dictionary κ ν}
    (present : session.dictionaries.get? name = some held) (apart : ¬ command.Makes name)
    (unwritten : ¬ command.Writes session name) (uncopied : ¬ command.Copies name) :
    after.dictionaries.get? name = some held := by
  obtain ⟨stamp, unused, ran⟩ := moves
  have effect := step_effect ran
  obtain ⟨found, read⟩ := effect.present present
  cases effect.origin (coherent.offer stamp) read with
  | kept _ _ _ before => rw [read, ← before, ← present]; rfl
  | copied copies _ => exact absurd (copies ▸ rfl) uncopied
  | touched touches _ _ => exact absurd touches (by simpa using ⟨apart, unwritten⟩)

/-- A copy is the dictionary it was copied from. -/
theorem Moves.get_copied {other : String} (moves : session.Moves (.copy other name) reply after) :
    ∃ held, session.dictionaries.get? name = some held ∧
      after.dictionaries.get? other = some held := by
  obtain ⟨stamp, unused, ran⟩ := moves
  cases step_effect ran with
  | copy present => exact ⟨_, present, Registers.get_set_self _ _ _⟩
  | reads asks => contradiction

/-- A dictionary that a move writes to accepts no bookmark that is held. -/
theorem Moves.not_accepts_wrote [Std.TransOrd κ] (moves : session.Moves command reply after)
    (coherent : session.Coherent) {held : Dictionary κ ν}
    (present : session.dictionaries.get? name = some held) (writes : command.Writes session name)
    (kept : session.Keeps bookmark) :
    ∃ written, after.dictionaries.get? name = some written ∧
      written.accepts bookmark = false := by
  obtain ⟨stamp, unused, ran⟩ := moves
  obtain ⟨mark, marked⟩ := kept
  have effect := step_effect ran
  obtain ⟨written, read⟩ := effect.present present
  refine ⟨written, read, ?_⟩
  cases effect.origin (coherent.offer stamp) read with
  | kept _ unwritten _ _ => exact absurd writes unwritten
  | copied copies _ =>
    subst copies
    exact absurd writes not_false
  | touched _ _ stamped =>
    have apart : bookmark.state ≠ written.state := stamped ▸ unused.bookmarks marked
    simp [Dictionary.accepts, apart]

/-- An issued bookmark marks an offset of the dictionary that issued it, and issuing changes
no dictionary. -/
theorem Moves.issued [Std.TransOrd κ] {wanted : BookmarkRequest κ} {target : String}
    (moves : session.Moves (.issue name wanted target) (.bookmark bookmark) after)
    (coherent : session.Coherent) :
    ∃ issuer, session.dictionaries.get? name = some issuer ∧
      after.dictionaries = session.dictionaries ∧ ∃ offset, issuer.Marks bookmark offset := by
  obtain ⟨stamp, unused, ran⟩ := moves
  cases step_effect ran with
  | issue present issued =>
    exact ⟨_, present, rfl, (coherent.offer stamp).request_marks present issued⟩
  | reads asks => contradiction

/-! ## Whole runs -/

/-- A dictionary of the lineage is there, and it accepts the bookmark just if it was not
written to. -/
theorem Lineage.accepts_iff [Std.TransOrd κ] {origin : String} {written : Bool}
    {issuer : Dictionary κ ν} (lineage : Lineage bookmark session origin written final name)
    (reached : session.Reached) (present : session.dictionaries.get? origin = some issuer)
    (accepted : issuer.accepts bookmark = true) :
    ∃ dictionary, final.dictionaries.get? name = some dictionary ∧
      dictionary.accepts bookmark = !written := by
  induction lineage with
  | here => exact ⟨issuer, present, accepted⟩
  | aside before moves _ apart unwritten uncopied inductionHypothesis =>
    obtain ⟨dictionary, held, answer⟩ := inductionHypothesis
    have coherent := (before.keeping.reached reached).coherent
    exact ⟨dictionary, moves.get_aside coherent held apart unwritten uncopied, answer⟩
  | copied before moves _ inductionHypothesis =>
    obtain ⟨dictionary, held, answer⟩ := inductionHypothesis
    obtain ⟨copy, copied, there⟩ := moves.get_copied
    obtain rfl := Option.some.inj (copied.symm.trans held)
    exact ⟨copy, there, answer⟩
  | wrote before moves _ writes inductionHypothesis =>
    obtain ⟨dictionary, held, _⟩ := inductionHypothesis
    have coherent := (before.keeping.reached reached).coherent
    exact moves.not_accepts_wrote coherent held writes before.keeping.keeps

/-- While the bookmark is kept, a dictionary with its stamp is the one that issued it. -/
theorem Keeping.eq_issuer [Std.TransOrd κ] {issuer : Dictionary κ ν}
    (keeping : Keeping bookmark session final) (reached : session.Reached)
    (first : ∀ {name held}, session.dictionaries.get? name = some held →
      held.state = bookmark.state → held = issuer)
    {dictionary : Dictionary κ ν} (present : final.dictionaries.get? name = some dictionary)
    (same : dictionary.state = bookmark.state) : dictionary = issuer := by
  induction keeping generalizing name dictionary with
  | here => exact first present same
  | move before moves _ inductionHypothesis =>
    have coherent := (before.reached reached).coherent
    obtain ⟨mark, marked⟩ := before.keeps
    obtain ⟨stamp, unused, ran⟩ := moves
    rcases ((step_effect ran).origin (coherent.offer stamp) present).old_or_touched unused with
      ⟨⟨earlier, held⟩, _⟩ | ⟨_, _, stamped⟩
    · exact inductionHypothesis held same
    · exact absurd (same.symm.trans stamped) (unused.bookmarks marked)

/-- A bookmark stays valid for the dictionary that issued it, and for the copies made of it
since, until it or the copy is written to. From then on it is rejected. Any dictionary that
accepts it holds what the issuing one held, and finds the same entry at the same offset. -/
theorem bookmark_isValid [Std.TransOrd κ] {wanted : BookmarkRequest κ} {target : String}
    {issuer : Dictionary κ ν} (reached : session.Reached)
    (present : session.dictionaries.get? name = some issuer)
    (moves : session.Moves (.issue name wanted target) (.bookmark bookmark) after) :
    (∀ written final other, Lineage bookmark after name written final other →
      ∃ dictionary, final.dictionaries.get? other = some dictionary ∧
        (written = true → dictionary.accepts bookmark = false ∧ dictionary.Rejects bookmark) ∧
        (written = false → dictionary.accepts bookmark = true)) ∧
    ∀ final other dictionary, Keeping bookmark after final →
      final.dictionaries.get? other = some dictionary → dictionary.accepts bookmark = true →
        dictionary.tree.toList = issuer.tree.toList ∧
        dictionary.entryAt bookmark = issuer.entryAt bookmark ∧
        ∃ offset, issuer.offsetOf bookmark = .ok offset ∧
          dictionary.offsetOf bookmark = .ok offset ∧
          ((bookmark.isEnd = true ∧ offset = issuer.size) ∨
            ∃ entry, issuer.tree.toList[offset]? = some entry ∧
              issuer.entryAt bookmark = .ok entry) := by
  obtain ⟨found, issuing, unchanged, offset, marks⟩ := moves.issued reached.coherent
  obtain rfl := Option.some.inj (issuing.symm.trans present)
  have sound := reached.coherent.sound issuing
  have goesOn := reached.move moves
  constructor
  · intro written final other lineage
    obtain ⟨dictionary, held, answer⟩ :=
      lineage.accepts_iff goesOn (unchanged ▸ issuing) marks.1
    refine ⟨dictionary, held, ?_, ?_⟩
    · rintro rfl
      exact ⟨answer, Dictionary.rejects_of_not_accepts answer⟩
    · rintro rfl
      exact answer
  · intro final other dictionary keeping held accepted
    have issuedUnder := (Dictionary.accepts_iff.mp marks.1).1
    have same := (Dictionary.accepts_iff.mp accepted).1
    obtain rfl : dictionary = found := by
      refine keeping.eq_issuer goesOn ?_ held same.symm
      intro earlier copy there alike
      rw [unchanged] at there
      exact reached.coherent.agree there issuing (alike.trans issuedUnder)
    refine ⟨rfl, rfl, offset, Dictionary.offsetOf_eq sound marks,
      Dictionary.offsetOf_eq sound marks, ?_⟩
    rcases Dictionary.entryAt_eq sound marks with ⟨atEnd, last, _⟩ | ⟨entry, there, answered⟩
    · left
      exact ⟨by simp [Bookmark.isEnd, atEnd], last⟩
    · exact .inr ⟨entry, there, answered⟩

/-- A dictionary is copied and then written to: it rejects the bookmark it issued, while the
copy accepts it and finds the entry that was there. -/
theorem bookmark_isValid_copied :
    let session := (empty : DictionarySession Int Int).attemptAll
      [.create "left" ⟨4, 4⟩, .insert "left" 1 10, .insert "left" 2 20, .insert "left" 3 30]
    let issued := session.attemptAll [.issue "left" (.key 2) "mark"]
    let copied := issued.attemptAll [.copy "right" "left"]
    let written := copied.attemptAll [.insert "left" 4 40]
    ∃ issuer bookmark, session.Reached ∧ session.dictionaries.get? "left" = some issuer ∧
      session.Moves (.issue "left" (.key 2) "mark") (.bookmark bookmark) issued ∧
      (∃ dictionary, written.dictionaries.get? "left" = some dictionary ∧
        dictionary.Rejects bookmark) ∧
      ∃ dictionary, written.dictionaries.get? "right" = some dictionary ∧
        dictionary.accepts bookmark = true ∧
        dictionary.entryAt bookmark = issuer.entryAt bookmark := by
  intro session issued copied written
  have goOn (commands : List (DictionaryCommand Int Int)) {start : DictionarySession Int Int}
      (known : start.Reached ∧ start.Counts) := attemptAll_reached commands known.1 known.2
  have start : session.Reached ∧ session.Counts := goOn _ ⟨.start, empty_counts⟩
  have issuing : issued.Reached ∧ issued.Counts := goOn _ start
  have copying : copied.Reached ∧ copied.Counts := goOn _ issuing
  have present : session.dictionaries.get? "left" = some _ := rfl
  have moves : session.Moves (.issue "left" (.key 2) "mark") (.bookmark _) issued :=
    ⟨session.fresh, start.2.unused _, rfl⟩
  have copyMoves : issued.Moves (.copy "right" "left") _ copied :=
    ⟨issued.fresh, issuing.2.unused _, rfl⟩
  have writeMoves : copied.Moves (.insert "left" 4 40) _ written :=
    ⟨copied.fresh, copying.2.unused _, rfl⟩
  have here : Lineage _ issued "left" false issued "left" := .here ⟨"mark", rfl⟩
  have apart : "left" ≠ "right" := by decide
  have unwritten : Lineage _ issued "left" false written "right" :=
    (here.copied copyMoves ⟨"mark", rfl⟩).aside writeMoves ⟨"mark", rfl⟩ not_false apart not_false
  have overwritten : Lineage _ issued "left" true written "left" :=
    (here.aside copyMoves ⟨"mark", rfl⟩ not_false not_false apart.symm).wrote writeMoves
      ⟨"mark", rfl⟩ rfl
  obtain ⟨lineages, faithful⟩ := bookmark_isValid start.1 present moves
  obtain ⟨left, leftHeld, rejects, _⟩ := lineages _ _ _ overwritten
  obtain ⟨right, rightHeld, _, accepts⟩ := lineages _ _ _ unwritten
  obtain ⟨_, entry, _⟩ := faithful _ _ _ unwritten.keeping rightHeld (accepts rfl)
  exact ⟨_, _, start.1, present, moves, ⟨left, leftHeld, (rejects rfl).2⟩, right, rightHeld,
    accepts rfl, entry⟩

end DictionarySession

end CountedBTree
