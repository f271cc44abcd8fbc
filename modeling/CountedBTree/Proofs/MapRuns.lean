import CountedBTree.Proofs.KeyMaps
import CountedBTree.Proofs.FreeStamps
import CountedBTree.Proofs.TreeReading

/-!
# Dictionaries as ordered maps

A run on dictionaries is followed by a run on lists with increasing keys, one for each name.
Every command does to the lists what it does to the dictionaries: mapping a key puts it in
its place, a bookmark stands for the key of the entry it shows, and a copy is another list.
The two stay in step, so that in every session that a run leads to each dictionary answers
every reading as its list does, and every write, too: what it answers and what it leaves are
those of the list, and it is refused where its gate is shut and nowhere else.

Commands that take it on trust that keys are distinct are left out, because they keep every
entry of a key that is repeated.
-/

namespace CountedBTree

variable {κ ν : Type}

namespace Registers

variable {α : Type}

/-- Change the value of a name, if it has one. -/
def modify (registers : Registers α) (name : String) (change : α → α) : Registers α :=
  match registers.get? name with
  | some value => registers.set name (change value)
  | none => registers

/-- The value of a name that has one is changed. -/
theorem modify_eq {registers : Registers α} {name : String} {value : α}
    (present : registers.get? name = some value) (change : α → α) :
    registers.modify name change = registers.set name (change value) := by
  rw [modify, present]

end Registers

/-- Whether the command takes it on trust that keys are distinct. -/
def DictionaryCommand.trusts : DictionaryCommand κ ν → Bool
  | buildDistinct _ _ | buildSample _ _ => true
  | _ => false

/-- What a dictionary answers when it holds the given entries, read in every way there is. -/
structure Dictionary.Answers [Ord κ] (dictionary : Dictionary κ ν) (entries : List (κ × ν)) :
    Prop where
  get : ∀ key, dictionary.get? key = .ok (valueOf key entries)
  contains : ∀ key, dictionary.contains key = .ok (valueOf key entries).isSome
  size : dictionary.size = entries.length
  isEmpty : dictionary.isEmpty = entries.isEmpty
  min : dictionary.min? = .ok entries.head?
  max : dictionary.max? = .ok entries.getLast?
  entryAt : ∀ offset, dictionary.entryAt? offset = .ok entries[offset]?
  gathered : dictionary.entries = .ok entries
  sweep : ∀ script, ∃ sweep, dictionary.tree.sweep = .ok sweep ∧
    Sweep.source.pullAll script sweep = TwoEnded.ofList.pullAll script entries
  images : ∀ {α : Type} (image : κ × ν → α) (script : List Pull), ∃ sweep,
    dictionary.tree.sweep = .ok sweep ∧ (Sweep.source.map image).pullAll script sweep =
      TwoEnded.ofList.pullAll script (entries.map image)
  between : ∀ low high script, ∃ sweep, dictionary.sweepBetween low high = .ok sweep ∧
    Sweep.source.pullAll script sweep =
      TwoEnded.ofList.pullAll script (entriesBetween low high entries)

/-- A sound dictionary answers as the list of its entries does. -/
theorem Dictionary.answers_of_sound [Ord κ] [Footprint κ] [Footprint ν] [Std.TransOrd κ]
    {dictionary : Dictionary κ ν} (sound : dictionary.tree.Sound) :
    dictionary.Answers dictionary.tree.toList where
  get key := Tree.firstValue_eq sound key
  contains key := by
    rw [Dictionary.contains, Tree.contains_eq sound key, valueOf, Option.isSome_map,
      List.isSome_find?]
  size := Tree.size_eq sound
  isEmpty := Tree.isEmpty_eq sound
  min := Tree.first_eq sound
  max := Tree.last_eq sound
  entryAt offset := Tree.entryAt_eq sound offset
  gathered := by
    obtain ⟨sweep, made, listed, _⟩ := Tree.sweep_pullAll sound []
    simp [Dictionary.entries, made, listed]
  sweep script := by
    obtain ⟨sweep, made, _, answered⟩ := Tree.sweep_pullAll sound script
    exact ⟨sweep, made, answered⟩
  images image script := Tree.sweep_pullAll_map sound image script
  between low high script := Tree.sweepBetween_pullAll sound low high script

/-- What the writes to a dictionary answer and leave when it holds the given entries, each
through its gate. -/
structure Dictionary.WritesAs [Ord κ] [Footprint κ] [Footprint ν] (dictionary : Dictionary κ ν)
    (entries : List (κ × ν)) : Prop where
  insert : ∀ key value stamp,
    (dictionary.tree.roomFor (put key value entries).length).Admits
      (dictionary.insert key value stamp).outcome (fun answer =>
        answer.1 = valueOf key entries ∧ answer.2.Answers (put key value entries))
  insertAll : ∀ pairs stamp,
    (dictionary.tree.roomToPut pairs).Admits (dictionary.insertAll stamp pairs).outcome
      (fun answer => answer.2.Answers (putEach pairs entries))
  changed : ∀ key old change stamp, valueOf key entries = some old →
    dictionary.tree.checkGeneration.Admits (dictionary.change key change stamp) (fun answer =>
      ∃ written, answer = some (old, written) ∧
        written.Answers (changeValue key change entries))
  missed : ∀ key change stamp, valueOf key entries = none →
    dictionary.change key change stamp = .ok none
  setValueAt : ∀ bookmark key old value stamp, dictionary.entryAt bookmark = .ok (key, old) →
    valueOf key entries = some old ∧
      dictionary.tree.checkGeneration.Admits (dictionary.setValueAt bookmark value stamp)
        (fun answer => answer.1 = old ∧
          answer.2.Answers (changeValue key (fun _ => value) entries))
  cleared : ∀ stamp, ∃ empty, dictionary.cleared stamp = .ok empty ∧ empty.Answers []

section Writes

variable [Ord κ] [Footprint κ] [Footprint ν] {held : Dictionary κ ν} {stamp : Stamp}

/-- A value set at a bookmark replaces the one of the entry that the bookmark shows. -/
theorem Dictionary.setValueAt_admits (sound : held.tree.Sound) {bookmark : Bookmark κ ν} {key : κ}
    {old : ν} (shown : held.entryAt bookmark = .ok (key, old)) (value : ν) (stamp : Stamp) :
    ∃ offset, held.tree.toList[offset]? = some (key, old) ∧
      held.tree.checkGeneration.Admits (held.setValueAt bookmark value stamp) (fun answer =>
        answer.1 = old ∧ answer.2.Holds (held.tree.toList.set offset (key, value)) stamp) := by
  obtain ⟨height, shaped⟩ := sound.shaped
  obtain ⟨place, placed, shown⟩ := Checked.bind_eq_ok.mp shown
  obtain ⟨trail, followed, shown⟩ := Checked.bind_eq_ok.mp shown
  obtain ⟨entry, read, shown⟩ := Checked.bind_eq_ok.mp shown
  obtain ⟨offset, _, _, leads, there, admits⟩ := Tree.setValue_admits sound followed value
  obtain ⟨_, present, alsoRead⟩ := leads.entry_eq shaped
  obtain rfl := Except.ok.inj (alsoRead.symm.trans read)
  obtain rfl := Except.ok.inj shown
  obtain ⟨rfl, rfl⟩ := Prod.mk.inj (Option.some.inj (there.symm.trans present))
  refine ⟨offset, present, ?_⟩
  rw [setValueAt, placed, Checked.ok_bind]
  apply admits.bind_ok
  rintro ⟨_, after⟩ ⟨rfl, revalues⟩
  exact ⟨_, rfl, rfl, revalues.sound, revalues.listed, rfl⟩

variable [Std.TransOrd κ]

/-- What holds given entries answers as they do. -/
theorem Dictionary.Holds.answers {entries : List (κ × ν)} (holds : held.Holds entries stamp) :
    held.Answers entries := by
  rw [← holds.listed]
  exact answers_of_sound holds.sound

/-- A sound dictionary whose keys increase is written to as the list of its entries is. -/
theorem Dictionary.writesAs_of_sound (sound : held.tree.Sound)
    (increasing : Increasing held.tree.toList) : held.WritesAs held.tree.toList where
  insert := by
    intro key value stamp
    rw [← increasing.putFirst_eq_put]
    apply (insert_admits sound key value stamp).imp
    rintro answer _ ⟨previous, holds, _⟩
    exact ⟨previous, holds.answers⟩
  insertAll := by
    intro pairs stamp
    rw [← (increasing.putAll_eq_putEach pairs).1]
    exact (insertAll_admits pairs stamp sound 0).imp (fun answer _ holds => holds.answers)
  changed := by
    intro key old change stamp there
    obtain ⟨entry, first, rfl⟩ := Option.map_eq_some_iff.mp there
    rw [← increasing.set_eq_changeValue change first]
    apply (change_found sound change stamp first).imp
    rintro answer _ ⟨written, same, holds⟩
    exact ⟨written, same, holds.answers⟩
  missed key change stamp absent := change_missed sound change stamp absent
  setValueAt := by
    intro bookmark key old value stamp shown
    obtain ⟨offset, there, admits⟩ := setValueAt_admits sound shown value stamp
    obtain ⟨found, same⟩ := increasing.set_at there value
    refine ⟨found, ?_⟩
    rw [← same]
    apply admits.imp
    rintro answer _ ⟨previous, holds⟩
    exact ⟨previous, holds.answers⟩
  cleared := by
    intro stamp
    obtain ⟨empty, ran, holds⟩ := cleared_holds sound stamp
    exact ⟨empty, ran, holds.answers⟩

end Writes

namespace DictionarySession

/-- The key of the entry that a bookmark shows in a dictionary. -/
def keyAt (session : DictionarySession κ ν) (name mark : String) : Option κ := do
  let held ← session.dictionaries.get? name
  let bookmark ← session.bookmarks.get? mark
  let entry ← (held.entryAt bookmark).toOption
  pure entry.1

variable [Ord κ]

/-- What a command does to lists in place of dictionaries. -/
def follow [SampleKey κ] [SampleValue ν] (session : DictionarySession κ ν)
    (lists : Registers (List (κ × ν))) : DictionaryCommand κ ν → Registers (List (κ × ν))
  | .create name _ | .clear name => lists.set name []
  | .build name pairs => lists.set name (putEach pairs [])
  | .copy name source =>
      match lists.get? source with
      | some entries => lists.set name entries
      | none => lists
  | .insert name key value => lists.modify name (put key value)
  | .extend name pairs => lists.modify name (putEach pairs)
  | .fill name run =>
      match (run.entries : Checked (List (κ × ν))) with
      | .ok pairs => lists.modify name (putEach pairs)
      | .error _ => lists
  | .change name key value => lists.modify name (changeValue key (fun old => value.getD old))
  | .setValueAt name mark value =>
      match session.keyAt name mark with
      | some key => lists.modify name (changeValue key (fun _ => value))
      | none => lists
  | _ => lists

/-- Every dictionary holds the entries of the list of the same name, with increasing keys. -/
structure InOrder (session : DictionarySession κ ν) (lists : Registers (List (κ × ν))) :
    Prop where
  listed : ∀ name, lists.get? name =
    (session.dictionaries.get? name).map (fun held => held.tree.toList)
  increasing : ∀ {name held}, session.dictionaries.get? name = some held →
    Increasing held.tree.toList

variable {session after : DictionarySession κ ν} {lists : Registers (List (κ × ν))}
variable {name : String} {held written : Dictionary κ ν}

/-- The list of a name that stands for a dictionary. -/
theorem InOrder.list_eq (inOrder : session.InOrder lists)
    (present : session.dictionaries.get? name = some held) :
    lists.get? name = some held.tree.toList := by
  rw [inOrder.listed name, present]
  rfl

/-- Storing a dictionary is followed by storing the list of its entries. -/
theorem InOrder.set (inOrder : session.InOrder lists)
    (same : after.dictionaries = session.dictionaries.set name written)
    {entries : List (κ × ν)} (listed : written.tree.toList = entries)
    (increasing : Increasing entries) : after.InOrder (lists.set name entries) where
  listed := by
    intro other
    rw [same]
    by_cases here : other = name
    · rw [here, Registers.get_set_self, Registers.get_set_self, Option.map_some, listed]
    · rw [Registers.get_set_other _ _ here, Registers.get_set_other _ _ here, inOrder.listed]
  increasing := by
    intro other found read
    rw [same] at read
    rcases Registers.get_set_cases read with ⟨_, rfl⟩ | ⟨_, before⟩
    · exact listed ▸ increasing
    · exact inOrder.increasing before

/-- Storing what a dictionary became is followed by the same change to its list. -/
theorem InOrder.modify (inOrder : session.InOrder lists)
    (present : session.dictionaries.get? name = some held)
    (same : after.dictionaries = session.dictionaries.set name written)
    {change : List (κ × ν) → List (κ × ν)} (listed : written.tree.toList = change held.tree.toList)
    (increasing : Increasing (change held.tree.toList)) :
    after.InOrder (lists.modify name change) := by
  rw [Registers.modify_eq (inOrder.list_eq present)]
  exact inOrder.set same listed increasing

/-- A change that leaves a list as it is needs no change to the dictionary. -/
theorem InOrder.modify_same (inOrder : session.InOrder lists)
    (present : session.dictionaries.get? name = some held)
    {change : List (κ × ν) → List (κ × ν)} (idle : change held.tree.toList = held.tree.toList) :
    session.InOrder (lists.modify name change) where
  listed := by
    intro other
    rw [Registers.modify_eq (inOrder.list_eq present), idle]
    by_cases here : other = name
    · rw [here, Registers.get_set_self, present]
      rfl
    · rw [Registers.get_set_other _ _ here, inOrder.listed]
  increasing := inOrder.increasing

section Following

variable [Footprint κ] [Footprint ν] [SampleKey κ] [SampleValue ν]

section Runs

variable [BEq κ] [BEq ν] [Listed κ] [Listed ν]

/-- A run on dictionaries together with the run on lists that follows it. -/
inductive InStep : DictionarySession κ ν → Registers (List (κ × ν)) → Prop where
  | start : InStep empty Registers.empty
  | move {session after : DictionarySession κ ν} {lists : Registers (List (κ × ν))}
      {command : DictionaryCommand κ ν} {reply : Reply κ ν} (before : InStep session lists)
      (moves : session.Moves command reply after) (checks : command.trusts = false) :
      InStep after (session.follow lists command)

/-- The session of a run that is followed is one that a run leads to. -/
theorem InStep.reached (inStep : InStep session lists) : session.Reached := by
  induction inStep with
  | start => exact .start
  | move _ moves _ inductionHypothesis => exact inductionHypothesis.move moves

end Runs

variable [Std.TransOrd κ] {command : DictionaryCommand κ ν} {reply : Reply κ ν}

/-- A command does to the lists what it does to the dictionaries. -/
theorem Effect.inOrder (coherent : session.Coherent) (inOrder : session.InOrder lists)
    (checks : command.trusts = false) (effect : Effect session command reply after) :
    after.InOrder (session.follow lists command) := by
  cases effect with
  | create ran =>
    exact inOrder.set rfl (Dictionary.empty_holds ran).listed List.Pairwise.nil
  | @build target pairs made ran =>
    have start : Increasing ([] : List (κ × ν)) := List.Pairwise.nil
    obtain ⟨same, increasing⟩ := start.putAll_eq_putEach pairs
    exact inOrder.set rfl ((Dictionary.ofList_holds ran).listed.trans same) increasing
  | buildDistinct ran => contradiction
  | buildSample sampled ran => contradiction
  | @copy target source held present =>
    rw [follow, inOrder.list_eq present]
    exact inOrder.set rfl rfl (inOrder.increasing present)
  | @insert target key value held written old present ran =>
    have increasing := inOrder.increasing present
    obtain ⟨_, holds, _⟩ := (Dictionary.insert_admits (coherent.sound present) _ _ _).of_ok ran
    exact inOrder.modify present rfl (holds.listed.trans (increasing.putFirst_eq_put key value))
      (increasing.put key value)
  | @extend target pairs held written replaced present ran =>
    obtain ⟨same, increasing⟩ := (inOrder.increasing present).putAll_eq_putEach pairs
    have holds := Dictionary.insertAll_holds (coherent.sound present) ran
    exact inOrder.modify present rfl (holds.listed.trans same) increasing
  | @fill target run pairs held written replaced present sampled ran =>
    obtain ⟨same, increasing⟩ := (inOrder.increasing present).putAll_eq_putEach pairs
    have holds := Dictionary.insertAll_holds (coherent.sound present) ran
    rw [follow, sampled]
    exact inOrder.modify present rfl (holds.listed.trans same) increasing
  | @changeMissed target key value held present ran =>
    have absent := Dictionary.absent_of_missed (coherent.sound present) ran
    exact inOrder.modify_same present (changeValue_absent _ absent)
  | @changeFound target key value held written old present ran =>
    have increasing := inOrder.increasing present
    obtain ⟨entry, first, _, holds⟩ := Dictionary.present_of_found (coherent.sound present) ran
    have same := increasing.set_eq_changeValue (fun old => value.getD old) first
    exact inOrder.modify present rfl (holds.listed.trans same)
      (increasing.of_keys (changeValue_keys _ _ _))
  | @setValueAt target mark value old bookmark held written marked present ran =>
    have increasing := inOrder.increasing present
    obtain ⟨offset, key, there, shown, holds⟩ := coherent.setValueAt_shown marked present ran
    have found : session.keyAt target mark = some key := by
      simp [keyAt, present, marked, shown, Except.toOption]
    rw [follow, found]
    exact inOrder.modify present rfl (holds.listed.trans (increasing.set_at there value).2)
      (increasing.of_keys (changeValue_keys _ _ _))
  | @clear target held cleared present ran =>
    obtain ⟨made, answered, holds⟩ :=
      Dictionary.cleared_holds (coherent.sound present) session.fresh
    obtain rfl := Except.ok.inj (answered.symm.trans ran)
    exact inOrder.set rfl holds.listed List.Pairwise.nil
  | issue present issued => exact ⟨inOrder.listed, inOrder.increasing⟩
  | copyBookmark marked => exact ⟨inOrder.listed, inOrder.increasing⟩
  | issueNothing present issued => exact inOrder
  | reads asks => cases command <;> first | contradiction | exact inOrder

variable [BEq κ] [BEq ν] [Listed κ] [Listed ν]

/-- Dictionaries and lists stay in step. -/
theorem InStep.inOrder (inStep : InStep session lists) : session.InOrder lists := by
  induction inStep with
  | start =>
    constructor
    · intro _
      rfl
    · intro name held present
      simp [empty, Registers.empty, Registers.get?] at present
  | move before moves checks inductionHypothesis =>
    obtain ⟨stamp, unused, ran⟩ := moves
    have offered : (offer _ stamp).InOrder _ :=
      ⟨inductionHypothesis.listed, inductionHypothesis.increasing⟩
    have followed :=
      (step_effect ran).inOrder (before.reached.coherent.offer stamp) offered checks
    exact followed

/-- A command attempted on dictionaries and followed on lists. A refused command changes
neither. -/
def attemptBoth (both : DictionarySession κ ν × Registers (List (κ × ν)))
    (command : DictionaryCommand κ ν) : DictionarySession κ ν × Registers (List (κ × ν)) :=
  match (both.1.step command).outcome with
  | .ok (_, after) => (after, both.1.follow both.2 command)
  | .error _ => both

/-- Commands attempted one after the other are a run that is followed. -/
theorem attemptBoth_inStep {commands : List (DictionaryCommand κ ν)}
    (checks : ∀ command ∈ commands, command.trusts = false) (inStep : InStep session lists)
    (counts : session.Counts) :
    InStep (commands.foldl attemptBoth (session, lists)).1
      (commands.foldl attemptBoth (session, lists)).2 := by
  induction commands generalizing session lists with
  | nil => exact inStep
  | cons command commands inductionHypothesis =>
    have later : ∀ command ∈ commands, command.trusts = false :=
      fun other member => checks other (List.mem_cons_of_mem _ member)
    rw [List.foldl_cons]
    cases ran : (session.step command).outcome with
    | error refusal =>
      simp only [attemptBoth, ran]
      exact inductionHypothesis later inStep counts
    | ok answer =>
      obtain ⟨reply, after⟩ := answer
      simp only [attemptBoth, ran]
      apply inductionHypothesis later
      · apply inStep.move ⟨session.fresh, counts.unused command, ran⟩
        exact checks command List.mem_cons_self
      · exact (step_effect ran).counts inStep.reached.coherent counts

/-- Every dictionary that a run leads to answers as an ordered map does: as the list of its
entries, whose keys increase. A key that is mapped answers the value it had and replaces it, or is
added in its place; mapping several keys, changing the value of a key, setting the value at a
bookmark that is accepted, and clearing do to the dictionary what they do to the list. So does
making a dictionary, empty or from pairs. A write is refused only where its gate is shut. -/
theorem inStep_isOrderedMap (inStep : InStep session lists) :
    (∀ name, (lists.get? name).isSome = (session.dictionaries.get? name).isSome) ∧
    (∀ name held entries, session.dictionaries.get? name = some held →
      lists.get? name = some entries →
        Increasing entries ∧ held.Answers entries ∧ held.WritesAs entries ∧
        ∀ mark bookmark, session.bookmarks.get? mark = some bookmark →
          held.accepts bookmark = true →
            bookmark.isEnd = true ∨ ∃ entry, held.entryAt bookmark = .ok entry) ∧
    (∀ (pairs : List (κ × ν)) stamp,
      (Capacities.standard.roomToBuild pairs).Admits (Dictionary.ofList pairs stamp).outcome
        (fun made => made.Answers (putEach pairs []))) ∧
    ∀ capacities : Capacities, 2 ≤ capacities.leaf → 2 ≤ capacities.branch → ∀ stamp,
      (checkLeafCapacity κ ν capacities.leaf).Admits (Dictionary.empty capacities stamp)
        (fun made : Dictionary κ ν => made.Answers []) := by
  have inOrder := inStep.inOrder
  refine ⟨?_, ?_, ?_, ?_⟩
  · intro name
    rw [inOrder.listed, Option.isSome_map]
  · intro name held entries present followed
    obtain rfl : held.tree.toList = entries :=
      Option.some.inj ((inOrder.list_eq present).symm.trans followed)
    have coherent := inStep.reached.coherent
    have sound := coherent.sound present
    have increasing := inOrder.increasing present
    refine ⟨increasing, Dictionary.answers_of_sound sound,
      Dictionary.writesAs_of_sound sound increasing, ?_⟩
    intro mark bookmark marked accepted
    obtain ⟨offset, marks⟩ :=
      coherent.marks marked present (Dictionary.accepts_iff.mp accepted).1
    rcases Dictionary.entryAt_eq sound marks with ⟨atEnd, _⟩ | ⟨entry, _, shown⟩
    · exact .inl (by simp [Bookmark.isEnd, atEnd])
    · exact .inr ⟨entry, shown⟩
  · intro pairs stamp
    have start : Increasing ([] : List (κ × ν)) := List.Pairwise.nil
    rw [← (start.putAll_eq_putEach pairs).1]
    exact (Dictionary.ofList_admits pairs stamp).imp (fun made _ holds => holds.answers)
  · intro capacities leafRoom branchRoom stamp
    exact (Dictionary.empty_admits leafRoom branchRoom stamp).imp
      (fun made _ holds => holds.1.answers)

end Following

instance : Std.TransOrd Folded :=
  have : Std.TransCmp (compareOn Folded.fold) := inferInstance
  this

/-- A root that split takes another spelling of one of its keys: the first spelling stays
and the new value is found under both. -/
theorem inStep_isOrderedMap_spellings :
    let both := [.create "map" ⟨2, 2⟩, .extend "map" [(⟨"b"⟩, 1), (⟨"c"⟩, 2), (⟨"a"⟩, 3)],
      .insert "map" ⟨"B"⟩ 4].foldl attemptBoth
        ((empty : DictionarySession Folded Int), Registers.empty)
    InStep both.1 both.2 ∧ ∃ held, both.1.dictionaries.get? "map" = some held ∧
      held.Answers [(⟨"a"⟩, 3), (⟨"b"⟩, 4), (⟨"c"⟩, 2)] := by
  intro both
  have inStep : InStep both.1 both.2 :=
    attemptBoth_inStep (by simp [DictionaryCommand.trusts]) .start empty_counts
  obtain ⟨named, answers, _⟩ := inStep_isOrderedMap inStep
  have followed : both.2.get? "map" = some [(⟨"a"⟩, 3), (⟨"b"⟩, 4), (⟨"c"⟩, 2)] := by
    dsimp only [both]
    cbv
  have there := named "map"
  rw [followed, Option.isSome_some] at there
  obtain ⟨held, present⟩ := Option.isSome_iff_exists.mp there.symm
  obtain ⟨_, answersHere, _⟩ := answers "map" held _ present followed
  exact ⟨inStep, held, present, answersHere⟩

end DictionarySession

end CountedBTree
