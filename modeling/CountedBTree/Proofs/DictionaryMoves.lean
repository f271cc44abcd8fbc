import CountedBTree.Proofs.Coherence
import CountedBTree.Proofs.DictionaryWrites

/-!
# Moves of a session

A run on dictionaries answers one command after the other. Each move has a stamp at hand
for what it writes. The stamp need not be new: it is enough that no bookmark has it, and no
dictionary except one that the move itself writes to or drops. Counting upwards gives such
stamps, and so does taking for a stamp where in memory a root is kept, as long as a
bookmark keeps its root alive.

A move leaves each dictionary alone, makes a copy of it, or puts one under the stamp at hand
that was free for it. So every session that a run leads to is coherent.
-/

namespace CountedBTree

variable {κ ν : Type}

namespace DictionaryCommand

/-- The command puts a newly made dictionary under the name. -/
def Makes (name : String) : DictionaryCommand κ ν → Prop
  | create target _ | build target _ | buildDistinct target _ | buildSample target _ =>
      target = name
  | _ => False

/-- The command makes the name stand for a copy. -/
def Copies (name : String) : DictionaryCommand κ ν → Prop
  | copy target _ => target = name
  | _ => False

variable [Ord κ] [SampleKey κ] [SampleValue ν]

/-- The command, once answered, has written to the dictionary of the name. Mapping no keys
is not a write, and neither is a change of a key that is not there. -/
def Writes (session : DictionarySession κ ν) (name : String) : DictionaryCommand κ ν → Prop
  | insert target _ _ | setValueAt target _ _ | clear target => target = name
  | extend target entries => target = name ∧ entries ≠ []
  | fill target run => target = name ∧ run.entries ≠ .ok ([] : List (κ × ν))
  | change target key _ => target = name ∧ ∃ held,
      session.dictionaries.get? name = some held ∧ valueOf key held.tree.toList ≠ none
  | _ => False

/-- A command makes or writes the dictionary of one name at most. -/
theorem touched_unique {session : DictionarySession κ ν} {command : DictionaryCommand κ ν}
    {name other : String} (first : command.Makes name ∨ command.Writes session name)
    (second : command.Makes other ∨ command.Writes session other) : name = other := by
  cases command <;> simp only [Makes, Writes, or_false, false_or, or_self] at first second
  all_goals grind

end DictionaryCommand

namespace DictionarySession

/-- The session with another stamp at hand. -/
def offer (session : DictionarySession κ ν) (stamp : Stamp) : DictionarySession κ ν :=
  { session with fresh := stamp }

section Moves

variable [Ord κ] [Footprint κ] [Footprint ν] [SampleKey κ] [SampleValue ν]

/-- The stamp at hand is free for what a command writes. -/
structure Unused (session : DictionarySession κ ν) (command : DictionaryCommand κ ν) :
    Prop where
  bookmarks : ∀ {mark bookmark}, session.bookmarks.get? mark = some bookmark →
    bookmark.state ≠ session.fresh
  dictionaries : ∀ {name held}, session.dictionaries.get? name = some held →
    held.state = session.fresh → command.Makes name ∨ command.Writes session name

variable [BEq κ] [BEq ν] [Listed κ] [Listed ν]

/-- The session answers the command, with some stamp that is free for it. A refused command
changes nothing and is no move. -/
def Moves (session : DictionarySession κ ν) (command : DictionaryCommand κ ν)
    (reply : Reply κ ν) (after : DictionarySession κ ν) : Prop :=
  ∃ stamp, (session.offer stamp).Unused command ∧
    ((session.offer stamp).step command).outcome = .ok (reply, after)

/-- The sessions that runs lead to. -/
inductive Reached : DictionarySession κ ν → Prop where
  | start : Reached empty
  | move {session after : DictionarySession κ ν} {command : DictionaryCommand κ ν}
      {reply : Reply κ ν} (before : Reached session)
      (moves : session.Moves command reply after) : Reached after

end Moves

variable [Ord κ] [Footprint κ] [Footprint ν] {session after : DictionarySession κ ν}

/-- The stamp at hand has no part in it. -/
theorem Coherent.offer (coherent : session.Coherent) (stamp : Stamp) :
    (session.offer stamp).Coherent :=
  ⟨coherent.sound, coherent.agree, coherent.marks⟩

/-- A value set at a bookmark replaces the one of the entry that the bookmark shows. -/
theorem Coherent.setValueAt_shown (coherent : session.Coherent) {name mark : String}
    {held written : Dictionary κ ν} {bookmark : Bookmark κ ν} {value old : ν} {stamp : Stamp}
    (marked : session.bookmarks.get? mark = some bookmark)
    (present : session.dictionaries.get? name = some held)
    (ran : held.setValueAt bookmark value stamp = .ok (old, written)) :
    ∃ offset key, held.tree.toList[offset]? = some (key, old) ∧
      held.entryAt bookmark = .ok (key, old) ∧
      written.Holds (held.tree.toList.set offset (key, value)) stamp := by
  have sound := coherent.sound present
  obtain ⟨offset, marks⟩ := coherent.marks_of_used marked present
    (fun rejects => by simp [rejects.write] at ran)
  rcases Dictionary.setValueAt_holds sound marks value stamp with
    ⟨_, refused⟩ | ⟨key, replaced, there, admits⟩
  · rw [refused] at ran
    contradiction
  · obtain ⟨rfl, holds⟩ := admits.of_ok ran
    refine ⟨offset, key, there, ?_, holds⟩
    rcases Dictionary.entryAt_eq sound marks with ⟨_, last, _⟩ | ⟨entry, alsoThere, shown⟩
    · have inside := (List.getElem?_eq_some_iff.mp there).1
      rw [last, Dictionary.size, Tree.size_eq sound] at inside
      exact absurd inside (Nat.lt_irrefl _)
    · obtain rfl := Option.some.inj (alsoThere.symm.trans there)
      exact shown

/-! ## What a move leaves -/

variable [SampleKey κ] [SampleValue ν]

/-- Where a dictionary comes from that a name stands for after a command. -/
inductive Origin (session : DictionarySession κ ν) (command : DictionaryCommand κ ν)
    (name : String) (dictionary : Dictionary κ ν) : Prop where
  /-- The command left it alone. -/
  | kept (apart : ¬ command.Makes name) (unwritten : ¬ command.Writes session name)
      (uncopied : ¬ command.Copies name)
      (before : session.dictionaries.get? name = some dictionary)
  /-- It was copied from another name. -/
  | copied {source : String} (copies : command = .copy name source)
      (before : session.dictionaries.get? source = some dictionary)
  /-- It was made or written, under the stamp at hand. -/
  | touched (touches : command.Makes name ∨ command.Writes session name)
      (sound : dictionary.tree.Sound) (stamped : dictionary.state = session.fresh)

variable {command : DictionaryCommand κ ν} {reply : Reply κ ν} {name : String}
variable {dictionary : Dictionary κ ν}

/-- A dictionary that was stored is read back, and the others stay. -/
theorem origin_of_store {target : String} {made : Dictionary κ ν} {contents : List (κ × ν)}
    (touches : command.Makes target ∨ command.Writes session target)
    (holds : made.Holds contents session.fresh) (uncopied : ¬ command.Copies name)
    (read : (session.store target made).dictionaries.get? name = some dictionary) :
    Origin session command name dictionary := by
  rcases Registers.get_set_cases read with ⟨rfl, rfl⟩ | ⟨different, before⟩
  · exact .touched touches holds.sound holds.state_eq
  · refine .kept ?_ ?_ uncopied before
    · intro makes
      exact different (DictionaryCommand.touched_unique (.inl makes) touches)
    · intro writes
      exact different (DictionaryCommand.touched_unique (.inr writes) touches)

/-- Mapping several keys writes, unless there are none. -/
theorem origin_of_insertAll [Std.TransOrd κ] {target : String} {held written : Dictionary κ ν}
    {pairs : List (κ × ν)} {replaced : Nat} (sound : held.tree.Sound)
    (present : session.dictionaries.get? target = some held)
    (ran : (held.insertAll session.fresh pairs).outcome = .ok (replaced, written))
    (makes : ∀ other, ¬ command.Makes other) (uncopied : ¬ command.Copies name)
    (writes : ∀ other, command.Writes session other ↔ target = other ∧ pairs ≠ [])
    (read : (session.store target written).dictionaries.get? name = some dictionary) :
    Origin session command name dictionary := by
  cases pairs with
  | nil =>
    obtain ⟨⟩ := Except.ok.inj ran
    have before : session.dictionaries.get? name = some dictionary := by
      rcases Registers.get_set_cases read with ⟨rfl, rfl⟩ | ⟨_, before⟩
      · exact present
      · exact before
    exact .kept (makes name) (by simp [writes]) uncopied before
  | cons pair pairs =>
    exact origin_of_store (.inr ((writes target).mpr ⟨rfl, List.cons_ne_nil _ _⟩))
      (Dictionary.insertAll_holds sound ran) uncopied read

/-- Every dictionary there is after a command was left alone, copied, made or written. -/
theorem Effect.origin [Std.TransOrd κ] (coherent : session.Coherent)
    (effect : Effect session command reply after)
    (read : after.dictionaries.get? name = some dictionary) :
    Origin session command name dictionary := by
  cases effect with
  | create ran =>
    exact origin_of_store (.inl rfl) (Dictionary.empty_holds ran) not_false read
  | build ran =>
    exact origin_of_store (.inl rfl) (Dictionary.ofList_holds ran) not_false read
  | buildDistinct ran =>
    exact origin_of_store (.inl rfl) (Dictionary.ofDistinct_holds ran) not_false read
  | buildSample sampled ran =>
    exact origin_of_store (.inl rfl) (Dictionary.ofDistinct_holds ran) not_false read
  | @copy target source held present =>
    rcases Registers.get_set_cases read with ⟨rfl, rfl⟩ | ⟨different, before⟩
    · exact .copied rfl present
    · exact .kept not_false not_false (fun same => different same.symm) before
  | insert present ran =>
    obtain ⟨_, holds, _⟩ := (Dictionary.insert_admits (coherent.sound present) _ _ _).of_ok ran
    exact origin_of_store (.inr rfl) holds not_false read
  | extend present ran =>
    exact origin_of_insertAll (coherent.sound present) present ran (fun _ => not_false) not_false
      (fun _ => Iff.rfl) read
  | fill present sampled ran =>
    refine origin_of_insertAll (coherent.sound present) present ran (fun _ => not_false) not_false
      ?_ read
    intro other
    simp [DictionaryCommand.Writes, sampled]
  | @changeMissed target key value held present ran =>
    have absent := Dictionary.absent_of_missed (coherent.sound present) ran
    refine .kept not_false ?_ not_false read
    rintro ⟨rfl, other, found, there⟩
    obtain rfl := Option.some.inj (found.symm.trans present)
    exact there absent
  | @changeFound target key value held written old present ran =>
    obtain ⟨entry, first, _, holds⟩ := Dictionary.present_of_found (coherent.sound present) ran
    refine origin_of_store (.inr ⟨rfl, held, present, ?_⟩) holds not_false read
    simp [valueOf, first]
  | setValueAt marked present ran =>
    obtain ⟨_, _, _, _, holds⟩ := coherent.setValueAt_shown marked present ran
    exact origin_of_store (.inr rfl) holds not_false read
  | clear present ran =>
    obtain ⟨cleared, answered, holds⟩ :=
      Dictionary.cleared_holds (coherent.sound present) session.fresh
    obtain rfl := Except.ok.inj (answered.symm.trans ran)
    exact origin_of_store (.inr rfl) holds not_false read
  | issue present issued => exact .kept not_false not_false not_false read
  | copyBookmark marked => exact .kept not_false not_false not_false read
  | issueNothing present issued => exact .kept not_false not_false not_false read
  | reads asks =>
    cases command <;> first | contradiction | exact .kept not_false not_false not_false read

/-- A name that stands for a dictionary goes on to stand for one. -/
theorem Effect.present (effect : Effect session command reply after)
    (before : session.dictionaries.get? name = some dictionary) :
    ∃ found, after.dictionaries.get? name = some found := by
  have stored : ∀ target (made : Dictionary κ ν),
      ∃ found, (session.dictionaries.set target made).get? name = some found := by
    intro target made
    by_cases same : name = target
    · exact ⟨made, same ▸ Registers.get_set_self _ _ _⟩
    · exact ⟨dictionary, (Registers.get_set_other _ _ same).trans before⟩
  cases effect <;> first | exact stored _ _ | exact ⟨dictionary, before⟩

/-- A bookmark that is held after a command was held before it, or was issued by it. -/
theorem Effect.bookmark_origin (effect : Effect session command reply after) {mark : String}
    {bookmark : Bookmark κ ν} (read : after.bookmarks.get? mark = some bookmark) :
    (∃ earlier, session.bookmarks.get? earlier = some bookmark) ∨
      after.dictionaries = session.dictionaries ∧ ∃ name wanted held,
        session.dictionaries.get? name = some held ∧
          (session.request held wanted).outcome = .ok (some bookmark) := by
  cases effect with
  | @issue name target wanted held issuedMark present issued =>
    rcases Registers.get_set_cases read with ⟨rfl, rfl⟩ | ⟨_, before⟩
    · exact .inr ⟨rfl, name, wanted, held, present, issued⟩
    · exact .inl ⟨mark, before⟩
  | @copyBookmark source target copied marked =>
    rcases Registers.get_set_cases read with ⟨rfl, rfl⟩ | ⟨_, before⟩
    · exact .inl ⟨source, marked⟩
    · exact .inl ⟨mark, before⟩
  | _ => exact .inl ⟨mark, read⟩

/-- A dictionary that a command did not touch was there before, and has another stamp than
the one a command touches. -/
theorem Origin.old_or_touched (unused : session.Unused command)
    (origin : Origin session command name dictionary) :
    ((∃ earlier, session.dictionaries.get? earlier = some dictionary) ∧
        ∀ other, command.Makes other ∨ command.Writes session other →
          dictionary.state ≠ session.fresh) ∨
      ((command.Makes name ∨ command.Writes session name) ∧ dictionary.tree.Sound ∧
        dictionary.state = session.fresh) := by
  cases origin with
  | kept apart unwritten uncopied before =>
    refine .inl ⟨⟨name, before⟩, ?_⟩
    intro other _ stamped
    exact (unused.dictionaries before stamped).elim apart unwritten
  | @copied source copies before =>
    refine .inl ⟨⟨source, before⟩, ?_⟩
    intro other touches
    subst copies
    exact touches.elim False.elim False.elim
  | touched touches sound stamped => exact .inr ⟨touches, sound, stamped⟩

/-- A command that was given a free stamp keeps equal stamps on equal contents. -/
theorem Effect.coherent [Std.TransOrd κ] (coherent : session.Coherent)
    (unused : session.Unused command)
    (effect : Effect session command reply after) : after.Coherent where
  sound := by
    intro name held present
    rcases (effect.origin coherent present).old_or_touched unused with
      ⟨⟨_, before⟩, _⟩ | ⟨_, sound, _⟩
    · exact coherent.sound before
    · exact sound
  agree := by
    intro name other held copy present alsoPresent same
    rcases (effect.origin coherent present).old_or_touched unused with
      ⟨⟨_, before⟩, apart⟩ | ⟨touches, _, stamped⟩
    · rcases (effect.origin coherent alsoPresent).old_or_touched unused with
        ⟨⟨_, alsoBefore⟩, _⟩ | ⟨alsoTouches, _, alsoStamped⟩
      · exact coherent.agree before alsoBefore same
      · exact absurd (same.trans alsoStamped) (apart other alsoTouches)
    · rcases (effect.origin coherent alsoPresent).old_or_touched unused with
        ⟨_, alsoApart⟩ | ⟨alsoTouches, _, _⟩
      · exact absurd (same.symm.trans stamped) (alsoApart name touches)
      · obtain rfl := DictionaryCommand.touched_unique touches alsoTouches
        exact Option.some.inj (present.symm.trans alsoPresent)
  marks := by
    intro mark name bookmark held marked present same
    rcases effect.bookmark_origin marked with
      ⟨_, marked⟩ | ⟨unchanged, issuer, wanted, issuing, there, issued⟩
    · rcases (effect.origin coherent present).old_or_touched unused with
        ⟨⟨_, before⟩, _⟩ | ⟨_, _, stamped⟩
      · exact coherent.marks marked before same
      · exact absurd (same.trans stamped) (unused.bookmarks marked)
    · rw [unchanged] at present
      obtain ⟨offset, marks⟩ := coherent.request_marks there issued
      have issuedUnder := (Dictionary.accepts_iff.mp marks.1).1
      obtain rfl := coherent.agree there present (issuedUnder.symm.trans same)
      exact ⟨offset, marks⟩

section Reaching

variable [BEq κ] [BEq ν] [Listed κ] [Listed ν]

/-- In every session that a run leads to, equal stamps mean equal contents. -/
theorem Reached.coherent [Std.TransOrd κ] (reached : session.Reached) : session.Coherent := by
  induction reached with
  | start => exact empty_coherent
  | move before moves inductionHypothesis =>
    obtain ⟨stamp, unused, ran⟩ := moves
    exact (step_effect ran).coherent (inductionHypothesis.offer stamp) unused

end Reaching

end DictionarySession

end CountedBTree
