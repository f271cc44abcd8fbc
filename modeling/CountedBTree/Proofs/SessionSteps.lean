import CountedBTree.Session.Dictionaries
import CountedBTree.Proofs.Runs

/-!
# What a command does to a session

An answered command on dictionaries does one of few things: it stores a dictionary under a
name, it stores a bookmark under a name, or it leaves the session as it was. `Effect` says
which, command by command, together with the answer of the operation it is due to. All that
is proved about runs of commands starts from there.
-/

namespace CountedBTree

namespace Registers

variable {α : Type}

/-- A value that was set is read back. -/
@[simp] theorem get_set_self (registers : Registers α) (name : String) (value : α) :
    (registers.set name value).get? name = some value := by
  simp [get?, set]

/-- Setting one name leaves the others alone. -/
theorem get_set_other (registers : Registers α) {name other : String} (value : α)
    (different : other ≠ name) : (registers.set name value).get? other = registers.get? other := by
  have apart : (other == name) = false := by simpa using different
  simp only [get?, set, List.lookup_cons, apart]
  induction registers.items with
  | nil => rfl
  | cons item rest inductionHypothesis =>
    obtain ⟨stored, held⟩ := item
    by_cases same : stored = name
    · simpa [List.filter_cons, same, List.lookup_cons, apart] using inductionHypothesis
    · cases here : other == stored with
      | true => simp [same, List.lookup_cons, here]
      | false => simpa [List.filter_cons, same, List.lookup_cons, here] using inductionHypothesis

/-- What is read after setting a name is the value set or was read before. -/
theorem get_set_cases {registers : Registers α} {name other : String} {value found : α}
    (read : (registers.set name value).get? other = some found) :
    (other = name ∧ found = value) ∨ (other ≠ name ∧ registers.get? other = some found) := by
  by_cases same : other = name
  · subst same
    rw [get_set_self] at read
    exact .inl ⟨rfl, (Option.some.inj read).symm⟩
  · rw [get_set_other registers value same] at read
    exact .inr ⟨same, read⟩

/-- A value that a command relied on is there. -/
theorem need_eq_ok {registers : Registers α} {name : String} {value : α} :
    (registers.need name).outcome = .ok value ↔ registers.get? name = some value := by
  cases read : registers.get? name <;> simp [need, read]

end Registers

section Lifts

variable {α : Type}

/-- Renaming causes keeps answers. -/
theorem Checked.mapError_eq_ok {checked : Checked α} {value : α} :
    checked.mapError Refusal.fault = .ok value ↔ checked = .ok value := by
  cases checked <;> simp [Except.mapError]

/-- A checked operation inside a command answers when it answers itself. -/
theorem Step.checked_eq_ok {checked : Checked α} {value : α} :
    (liftM checked : Step α).outcome = .ok value ↔ checked = .ok value :=
  Checked.mapError_eq_ok

/-- A traced operation inside a command answers when it answers itself. -/
theorem Step.traced_eq_ok {run : Traced Fault α} {value : α} :
    (liftM run : Step α).outcome = .ok value ↔ run.outcome = .ok value :=
  Checked.mapError_eq_ok

end Lifts

/-- Whether a command only asks for something. -/
def DictionaryCommand.onlyReads {κ ν : Type} : DictionaryCommand κ ν → Bool
  | orderBookmarks _ _ | equalBookmarks _ _ | same _ _ | equal _ _ | ask _ _ => true
  | _ => false

namespace DictionarySession

variable {κ ν : Type} [Ord κ] [Footprint κ] [Footprint ν]

section Effects

variable [SampleKey κ] [SampleValue ν]

/-- What an answered command does to a session, and what it answers where it writes. -/
inductive Effect (session : DictionarySession κ ν) :
    DictionaryCommand κ ν → Reply κ ν → DictionarySession κ ν → Prop where
  | create {name : String} {capacities : Capacities} {made : Dictionary κ ν}
      (ran : Dictionary.empty capacities session.fresh = .ok made) :
      Effect session (.create name capacities) (sizeReply made) (session.store name made)
  | build {name : String} {entries : List (κ × ν)} {made : Dictionary κ ν}
      (ran : (Dictionary.ofList entries session.fresh).outcome = .ok made) :
      Effect session (.build name entries) (sizeReply made) (session.store name made)
  | buildDistinct {name : String} {entries : List (κ × ν)} {made : Dictionary κ ν}
      (ran : (Dictionary.ofDistinct entries session.fresh).outcome = .ok made) :
      Effect session (.buildDistinct name entries) (sizeReply made) (session.store name made)
  | buildSample {name : String} {run : SampleRun} {entries : List (κ × ν)}
      {made : Dictionary κ ν} (sampled : run.entries = .ok entries)
      (ran : (Dictionary.ofDistinct entries session.fresh).outcome = .ok made) :
      Effect session (.buildSample name run) (sizeReply made) (session.store name made)
  | copy {name source : String} {held : Dictionary κ ν}
      (present : session.dictionaries.get? source = some held) :
      Effect session (.copy name source) (sizeReply held)
        { session with dictionaries := session.dictionaries.set name held }
  | insert {name : String} {key : κ} {value : ν} {held written : Dictionary κ ν}
      {old : Option ν} (present : session.dictionaries.get? name = some held)
      (ran : (held.insert key value session.fresh).outcome = .ok (old, written)) :
      Effect session (.insert name key value) (.written (.ofOption old) written.size)
        (session.store name written)
  | extend {name : String} {entries : List (κ × ν)} {held written : Dictionary κ ν}
      {replaced : Nat} (present : session.dictionaries.get? name = some held)
      (ran : (held.insertAll session.fresh entries).outcome = .ok (replaced, written)) :
      Effect session (.extend name entries) (.written .nothing written.size)
        (session.store name written)
  | fill {name : String} {run : SampleRun} {entries : List (κ × ν)}
      {held written : Dictionary κ ν} {replaced : Nat}
      (present : session.dictionaries.get? name = some held)
      (sampled : run.entries = .ok entries)
      (ran : (held.insertAll session.fresh entries).outcome = .ok (replaced, written)) :
      Effect session (.fill name run) (.written (.count replaced) written.size)
        (session.store name written)
  | changeMissed {name : String} {key : κ} {value : Option ν} {held : Dictionary κ ν}
      (present : session.dictionaries.get? name = some held)
      (ran : held.change key (fun old => value.getD old) session.fresh = .ok none) :
      Effect session (.change name key value) (.written .nothing held.size) session
  | changeFound {name : String} {key : κ} {value : Option ν} {held written : Dictionary κ ν}
      {old : ν} (present : session.dictionaries.get? name = some held)
      (ran : held.change key (fun old => value.getD old) session.fresh =
        .ok (some (old, written))) :
      Effect session (.change name key value) (.written (.value old) written.size)
        (session.store name written)
  | setValueAt {name mark : String} {value old : ν} {bookmark : Bookmark κ ν}
      {held written : Dictionary κ ν} (marked : session.bookmarks.get? mark = some bookmark)
      (present : session.dictionaries.get? name = some held)
      (ran : held.setValueAt bookmark value session.fresh = .ok (old, written)) :
      Effect session (.setValueAt name mark value) (.written (.value old) written.size)
        (session.store name written)
  | clear {name : String} {held cleared : Dictionary κ ν}
      (present : session.dictionaries.get? name = some held)
      (ran : held.cleared session.fresh = .ok cleared) :
      Effect session (.clear name) (.written .nothing cleared.size) (session.store name cleared)
  | issue {name target : String} {wanted : BookmarkRequest κ} {held : Dictionary κ ν}
      {bookmark : Bookmark κ ν} (present : session.dictionaries.get? name = some held)
      (issued : (session.request held wanted).outcome = .ok (some bookmark)) :
      Effect session (.issue name wanted target) (.bookmark bookmark)
        (session.mark target bookmark)
  | copyBookmark {mark target : String} {bookmark : Bookmark κ ν}
      (marked : session.bookmarks.get? mark = some bookmark) :
      Effect session (.copyBookmark mark target) (.bookmark bookmark)
        (session.mark target bookmark)
  | issueNothing {name target : String} {wanted : BookmarkRequest κ} {held : Dictionary κ ν}
      (present : session.dictionaries.get? name = some held)
      (issued : (session.request held wanted).outcome = .ok none) :
      Effect session (.issue name wanted target) .nothing session
  | reads {command : DictionaryCommand κ ν} {reply : Reply κ ν}
      (asks : command.onlyReads = true) : Effect session command reply session

variable [BEq κ] [BEq ν] [Listed κ] [Listed ν]

/-- Every answered command has one of these effects. -/
theorem step_effect {session after : DictionarySession κ ν} {command : DictionaryCommand κ ν}
    {reply : Reply κ ν} (ran : (session.step command).outcome = .ok (reply, after)) :
    Effect session command reply after := by
  cases command with
  | create name capacities =>
    simp only [step, Traced.bind_eq_ok, Step.checked_eq_ok, Traced.outcome_pure] at ran
    obtain ⟨made, ran, ⟨⟩⟩ := ran
    exact .create ran
  | build name entries =>
    simp only [step, Traced.bind_eq_ok, Step.traced_eq_ok, Traced.outcome_pure] at ran
    obtain ⟨made, ran, ⟨⟩⟩ := ran
    exact .build ran
  | buildDistinct name entries =>
    simp only [step, Traced.bind_eq_ok, Step.traced_eq_ok, Traced.outcome_pure] at ran
    obtain ⟨made, ran, ⟨⟩⟩ := ran
    exact .buildDistinct ran
  | buildSample name run =>
    simp only [step, Traced.bind_eq_ok, Step.checked_eq_ok, Step.traced_eq_ok,
      Traced.outcome_pure] at ran
    obtain ⟨entries, sampled, made, ran, ⟨⟩⟩ := ran
    exact .buildSample sampled ran
  | copy name source =>
    simp only [step, Traced.bind_eq_ok, Registers.need_eq_ok, Traced.outcome_pure] at ran
    obtain ⟨held, present, ⟨⟩⟩ := ran
    exact .copy present
  | insert name key value =>
    simp only [step, Traced.bind_eq_ok, Registers.need_eq_ok, Step.traced_eq_ok,
      Traced.outcome_pure] at ran
    obtain ⟨held, present, ⟨old, written⟩, ran, ⟨⟩⟩ := ran
    exact .insert present ran
  | extend name entries =>
    simp only [step, Traced.bind_eq_ok, Registers.need_eq_ok, Step.traced_eq_ok,
      Traced.outcome_pure] at ran
    obtain ⟨held, present, ⟨replaced, written⟩, ran, ⟨⟩⟩ := ran
    exact .extend present ran
  | fill name run =>
    simp only [step, Traced.bind_eq_ok, Registers.need_eq_ok, Step.checked_eq_ok, Step.traced_eq_ok,
      Traced.outcome_pure] at ran
    obtain ⟨held, present, entries, sampled, ⟨replaced, written⟩, ran, ⟨⟩⟩ := ran
    exact .fill present sampled ran
  | change name key value =>
    simp only [step, Traced.bind_eq_ok, Registers.need_eq_ok, Step.checked_eq_ok] at ran
    obtain ⟨held, present, changed, ran, answered⟩ := ran
    rcases changed with _ | ⟨old, written⟩
    · obtain ⟨⟩ := answered
      exact .changeMissed present ran
    · obtain ⟨⟩ := answered
      exact .changeFound present ran
  | setValueAt name mark value =>
    simp only [step, Traced.bind_eq_ok, Registers.need_eq_ok, Step.checked_eq_ok,
      Traced.outcome_pure] at ran
    obtain ⟨bookmark, marked, held, present, ⟨old, written⟩, ran, ⟨⟩⟩ := ran
    exact .setValueAt marked present ran
  | clear name =>
    simp only [step, Traced.bind_eq_ok, Registers.need_eq_ok, Step.checked_eq_ok,
      Traced.outcome_pure] at ran
    obtain ⟨held, present, cleared, ran, ⟨⟩⟩ := ran
    exact .clear present ran
  | issue name wanted target =>
    simp only [step, Traced.bind_eq_ok, Registers.need_eq_ok] at ran
    obtain ⟨held, present, issued, ran, answered⟩ := ran
    rcases issued with _ | bookmark
    · obtain ⟨⟩ := answered
      exact .issueNothing present ran
    · obtain ⟨⟩ := answered
      exact .issue present ran
  | copyBookmark mark target =>
    simp only [step, Traced.bind_eq_ok, Registers.need_eq_ok, Traced.outcome_pure] at ran
    obtain ⟨bookmark, marked, ⟨⟩⟩ := ran
    exact .copyBookmark marked
  | orderBookmarks first second =>
    simp only [step, Traced.bind_eq_ok, Traced.outcome_pure] at ran
    obtain ⟨_, _, _, _, _, _, ⟨⟩⟩ := ran
    exact .reads rfl
  | equalBookmarks first second =>
    simp only [step, Traced.bind_eq_ok, Traced.outcome_pure] at ran
    obtain ⟨_, _, _, _, _, _, ⟨⟩⟩ := ran
    exact .reads rfl
  | same first second =>
    simp only [step, Traced.bind_eq_ok, Traced.outcome_pure] at ran
    obtain ⟨_, _, _, _, ⟨⟩⟩ := ran
    exact .reads rfl
  | equal first second =>
    simp only [step, Traced.bind_eq_ok, Traced.outcome_pure] at ran
    obtain ⟨_, _, _, _, _, _, ⟨⟩⟩ := ran
    exact .reads rfl
  | ask name query =>
    simp only [step, Traced.bind_eq_ok, Traced.outcome_pure] at ran
    obtain ⟨_, _, _, _, ⟨⟩⟩ := ran
    exact .reads rfl

end Effects

end DictionarySession

end CountedBTree
