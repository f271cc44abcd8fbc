import CountedBTree.Proofs.DictionaryRuns
import CountedBTree.Proofs.MapRuns
import CountedBTree.Proofs.Strides

/-!
# Preconditions of commands

A command on dictionaries has few preconditions: room for two entries in a node, a key to be
there where it is asked for by subscript, bookmarks of the state of the dictionary they are
handed to, an entry to stand on or to step to, an offset inside, and one state for bookmarks to
be compared in. A command that breaks one of them is refused for the cause that belongs to it.

Besides, the machine has limits. A leaf may be asked for that no piece of memory holds, given
what its keys and values take. A write may be one more than a generation counts, or it may
split the first leaf of a dictionary when there is no memory for a branch. The gates of writes
tell all of this beforehand. They know nothing of how much memory there is in the end, and a
program that runs out of it ends without an answer or a refusal.
-/

namespace CountedBTree

variable {κ ν : Type}

/-! ## What a command relies on -/

/-- The bookmarks that a request starts from. -/
def BookmarkRequest.bookmarks : BookmarkRequest κ → List String
  | after mark | before mark | jump mark _ => [mark]
  | jumpWithin mark _ limit => [mark, limit]
  | _ => []

/-- The bookmarks that a question is about. -/
def DictionaryQuery.bookmarks : DictionaryQuery κ → List String
  | offsetOf mark | entryAtBookmark mark => [mark]
  | distance start stop => [start, stop]
  | _ => []

namespace DictionaryCommand

/-- The names that have to stand for dictionaries. -/
def dictionaries : DictionaryCommand κ ν → List String
  | copy _ source => [source]
  | insert name _ _ | extend name _ | fill name _ | change name _ _ | setValueAt name _ _ |
    clear name | issue name _ _ | ask name _ => [name]
  | same first second | equal first second => [first, second]
  | _ => []

/-- The names that have to stand for bookmarks. -/
def bookmarks : DictionaryCommand κ ν → List String
  | setValueAt _ mark _ | copyBookmark mark _ => [mark]
  | issue _ wanted _ => wanted.bookmarks
  | orderBookmarks first second | equalBookmarks first second => [first, second]
  | ask _ query => query.bookmarks
  | _ => []

/-- The command needs an entry of the dictionary at the bookmark. -/
def NeedsEntry (name mark : String) : DictionaryCommand κ ν → Prop
  | setValueAt target given _ => target = name ∧ given = mark
  | issue target (.after given) _ => target = name ∧ given = mark
  | ask target (.entryAtBookmark given) => target = name ∧ given = mark
  | _ => False

/-- The command compares the two bookmarks. -/
def Compares (first second : String) : DictionaryCommand κ ν → Prop
  | orderBookmarks left right | equalBookmarks left right => left = first ∧ right = second
  | _ => False

variable [SampleKey κ] [SampleValue ν]

/-- The command inserts the entries into the dictionary of the name. -/
def Inserts (name : String) (pairs : List (κ × ν)) : DictionaryCommand κ ν → Prop
  | insert target key value => target = name ∧ pairs = [(key, value)]
  | extend target given => target = name ∧ pairs = given
  | fill target run => target = name ∧ run.entries = .ok pairs
  | _ => False

/-- The command builds a dictionary from entries whose keys are taken to be distinct. -/
def BuildsDistinct (pairs : List (κ × ν)) : DictionaryCommand κ ν → Prop
  | buildDistinct _ given => pairs = given
  | buildSample _ run => run.entries = .ok pairs
  | _ => False

/-- What is given besides names can be made out: the entries of a run, and a length for
strides. -/
def Given : DictionaryCommand κ ν → Prop
  | buildSample _ run | fill _ run => ∃ pairs : List (κ × ν), run.entries = .ok pairs
  | ask _ (.walk steps _) => 0 < steps
  | _ => True

end DictionaryCommand

namespace DictionarySession

section Preconditions

variable [Ord κ]

/-- A jump of some steps passes a limit: it starts at it or in front of it, seen in the
direction of the jump, and ends behind it. -/
def Stops (offset limit : Nat) (steps : Int) : Prop :=
  (0 ≤ steps ∧ offset ≤ limit ∧ (limit : Int) < offset + steps) ∨
    (steps < 0 ∧ limit ≤ offset ∧ (offset : Int) + steps < limit)

/-- The preconditions of the commands, each with the cause for which it is refused. -/
inductive Breaks (session : DictionarySession κ ν) : DictionaryCommand κ ν → Fault → Prop where
  | branchRoom {name : String} {capacities : Capacities} (small : capacities.branch < 2) :
      Breaks session (.create name capacities) (.capacityTooSmall capacities.branch)
  | leafRoom {name : String} {capacities : Capacities} (enough : 2 ≤ capacities.branch)
      (small : capacities.leaf < 2) :
      Breaks session (.create name capacities) (.capacityTooSmall capacities.leaf)
  | missingKey {name : String} {key : κ} {held : Dictionary κ ν}
      (present : session.dictionaries.get? name = some held)
      (absent : valueOf key held.tree.toList = none) :
      Breaks session (.ask name (.get key)) .missingKey
  /-- A dictionary is handed a bookmark that it does not accept. -/
  | stale {command : DictionaryCommand κ ν} {name mark : String} {held : Dictionary κ ν}
      {bookmark : Bookmark κ ν} (relies : name ∈ command.dictionaries)
      (hands : mark ∈ command.bookmarks)
      (present : session.dictionaries.get? name = some held)
      (marked : session.bookmarks.get? mark = some bookmark)
      (foreign : held.accepts bookmark = false) : Breaks session command .staleBookmark
  | atEnd {command : DictionaryCommand κ ν} {name mark : String} {held : Dictionary κ ν}
      {bookmark : Bookmark κ ν} (needs : command.NeedsEntry name mark)
      (present : session.dictionaries.get? name = some held)
      (marked : session.bookmarks.get? mark = some bookmark)
      (accepted : held.accepts bookmark = true) (atEnd : bookmark.isEnd = true) :
      Breaks session command .endBookmark
  | atStart {name mark target : String} {held : Dictionary κ ν} {bookmark : Bookmark κ ν}
      (present : session.dictionaries.get? name = some held)
      (marked : session.bookmarks.get? mark = some bookmark)
      (counted : held.offsetOf bookmark = .ok 0) :
      Breaks session (.issue name (.before mark) target) .beforeStart
  | pastEnd {name target : String} {held : Dictionary κ ν} {offset : Nat}
      (present : session.dictionaries.get? name = some held) (past : held.size < offset) :
      Breaks session (.issue name (.offset offset) target) .bookmarkOffsetOutOfRange
  | jump {name mark target : String} {held : Dictionary κ ν} {bookmark : Bookmark κ ν}
      {offset : Nat} {steps : Int} (present : session.dictionaries.get? name = some held)
      (marked : session.bookmarks.get? mark = some bookmark)
      (counted : held.offsetOf bookmark = .ok offset)
      (outside : offset + steps < 0 ∨ held.size < offset + steps) :
      Breaks session (.issue name (.jump mark steps) target) .jumpOutOfRange
  | jumpWithin {name mark limitMark target : String} {held : Dictionary κ ν}
      {bookmark limit : Bookmark κ ν} {offset limitOffset : Nat} {steps : Int}
      (present : session.dictionaries.get? name = some held)
      (marked : session.bookmarks.get? mark = some bookmark)
      (limitMarked : session.bookmarks.get? limitMark = some limit)
      (counted : held.offsetOf bookmark = .ok offset)
      (limitCounted : held.offsetOf limit = .ok limitOffset)
      (unstopped : ¬ Stops offset limitOffset steps)
      (outside : offset + steps < 0 ∨ held.size < offset + steps) :
      Breaks session (.issue name (.jumpWithin mark steps limitMark) target) .jumpOutOfRange
  | incomparable {command : DictionaryCommand κ ν} {first second : String}
      {left right : Bookmark κ ν} (compares : command.Compares first second)
      (leftMarked : session.bookmarks.get? first = some left)
      (rightMarked : session.bookmarks.get? second = some right)
      (apart : left.sameState right = false) : Breaks session command .incomparableBookmarks

variable [Footprint κ] [Footprint ν] [SampleKey κ] [SampleValue ν]

/-- The limits of the machine, each with the cause for which a command is refused there. They
are those of the gates that the command has to pass. -/
inductive Limit (session : DictionarySession κ ν) : DictionaryCommand κ ν → Fault → Prop where
  /-- A leaf of the capacity asked for is no piece of memory. -/
  | leaf {name : String} {capacities : Capacities} {cause : Fault}
      (shut : checkLeafCapacity κ ν capacities.leaf = .error cause) :
      Limit session (.create name capacities) cause
  | built {name : String} {pairs : List (κ × ν)} {cause : Fault}
      (shut : Capacities.standard.roomToBuild pairs = .error cause) :
      Limit session (.build name pairs) cause
  | builtDistinct {command : DictionaryCommand κ ν} {pairs : List (κ × ν)} {cause : Fault}
      (builds : command.BuildsDistinct pairs)
      (shut : Capacities.standard.roomToFill κ ν pairs.length = .error cause) :
      Limit session command cause
  /-- One of the writes cannot be counted, or the root cannot be put over two halves. -/
  | entries {command : DictionaryCommand κ ν} {name : String} {pairs : List (κ × ν)}
      {held : Dictionary κ ν} {cause : Fault} (inserts : command.Inserts name pairs)
      (present : session.dictionaries.get? name = some held)
      (shut : held.tree.roomToPut pairs = .error cause) : Limit session command cause
  | change {name : String} {key : κ} {value : Option ν} {held : Dictionary κ ν} {cause : Fault}
      (present : session.dictionaries.get? name = some held)
      (found : valueOf key held.tree.toList ≠ none)
      (shut : held.tree.checkGeneration = .error cause) :
      Limit session (.change name key value) cause
  | setValueAt {name mark : String} {value : ν} {held : Dictionary κ ν} {cause : Fault}
      (present : session.dictionaries.get? name = some held)
      (shut : held.tree.checkGeneration = .error cause) :
      Limit session (.setValueAt name mark value) cause

/-- Every name that the command relies on stands for something, and what else it is given can
be made out. -/
structure WellFormed (session : DictionarySession κ ν) (command : DictionaryCommand κ ν) :
    Prop where
  dictionaries : ∀ name ∈ command.dictionaries, ∃ held,
    session.dictionaries.get? name = some held
  bookmarks : ∀ mark ∈ command.bookmarks, ∃ bookmark,
    session.bookmarks.get? mark = some bookmark
  given : command.Given

end Preconditions

/-! ## Steps of a command -/

section Steps

variable {α β : Type}

/-- A name that stands for a value is looked up without further ado. -/
theorem need_eq {registers : Registers α} {name : String} {value : α}
    (present : registers.get? name = some value) : registers.need name = pure value := by
  rw [Registers.need, present]

/-- A checked operation that is answered hands its value on. -/
@[simp] theorem lift_answered (value : α) :
    (liftM (Except.ok value : Checked α) : Step α) = pure value := rfl

/-- A checked operation that is refused refuses the command. -/
@[simp] theorem lift_refused (cause : Fault) :
    (liftM (Except.error cause : Checked α) : Step α) = Traced.refuse (.fault cause) := rfl

/-- Nothing is made of a refusal. -/
@[simp] theorem map_refuse (image : α → β) (refusal : Refusal) :
    image <$> (Traced.refuse refusal : Step α) = Traced.refuse refusal := rfl

end Steps

section Bookmarks

variable [Ord κ] [Footprint κ] [Footprint ν] {session : DictionarySession κ ν}
variable {mark name : String} {held : Dictionary κ ν}
variable {bookmark : Bookmark κ ν} {offset : Nat}

/-- A bookmark that a dictionary accepts marks an offset of it. -/
theorem Coherent.marks_of_accepts (coherent : session.Coherent)
    (marked : session.bookmarks.get? mark = some bookmark)
    (present : session.dictionaries.get? name = some held)
    (accepted : held.accepts bookmark = true) : ∃ offset, held.Marks bookmark offset :=
  coherent.marks marked present (Dictionary.accepts_iff.mp accepted).1

/-- A bookmark marks the offset that a dictionary counts for it. -/
theorem Coherent.marks_of_counted (coherent : session.Coherent)
    (marked : session.bookmarks.get? mark = some bookmark)
    (present : session.dictionaries.get? name = some held)
    (counted : held.offsetOf bookmark = .ok offset) : held.Marks bookmark offset := by
  obtain ⟨other, marks⟩ := coherent.marks_of_used marked present
    (fun rejects => by simp [rejects.offset] at counted)
  rw [Dictionary.offsetOf_eq (coherent.sound present) marks] at counted
  exact Except.ok.inj counted ▸ marks

/-- A distance is refused if one of its ends is a bookmark of another state. -/
theorem Coherent.distance_refused (coherent : session.Coherent) {start : Bookmark κ ν}
    (marked : session.bookmarks.get? mark = some bookmark)
    (present : session.dictionaries.get? name = some held)
    (foreign : held.accepts start = false ∨ held.accepts bookmark = false) :
    held.distance start bookmark = .error .staleBookmark := by
  cases accepted : held.accepts bookmark with
  | false => simp [Dictionary.distance, (Dictionary.rejects_of_not_accepts accepted).offset]
  | true =>
    have rejects := Dictionary.rejects_of_not_accepts (foreign.resolve_right (by simp [accepted]))
    obtain ⟨offset, marks⟩ := coherent.marks_of_accepts marked present accepted
    simp [Dictionary.distance, Dictionary.offsetOf_eq (coherent.sound present) marks,
      rejects.offset]

end Bookmarks

section Commands

variable [Ord κ] {session : DictionarySession κ ν} {name mark : String} {held : Dictionary κ ν}
variable {bookmark : Bookmark κ ν} {stamp : Stamp}

/-- The stamp at hand has no part in what is issued. -/
theorem request_offer (wanted : BookmarkRequest κ) :
    (session.offer stamp).request held wanted = session.request held wanted := by
  cases wanted <;> rfl

/-- The stamp at hand has no part in what is answered. -/
theorem answer_offer [Listed κ] [Listed ν] (query : DictionaryQuery κ) :
    (session.offer stamp).answer held query = session.answer held query := by
  cases query <;> rfl

variable [Footprint κ] [Footprint ν] [SampleKey κ] [SampleValue ν]
variable [BEq κ] [BEq ν] [Listed κ] [Listed ν]
variable {command : DictionaryCommand κ ν} {cause : Fault} {refusal : Refusal}

/-- A request is refused as the dictionary refuses it. -/
theorem issue_refused {wanted : BookmarkRequest κ} {target : String}
    (present : session.dictionaries.get? name = some held)
    (refused : (session.request held wanted).outcome = .error refusal) :
    ((session.offer stamp).step (.issue name wanted target)).outcome = .error refusal := by
  have here : (session.offer stamp).dictionaries.get? name = some held := present
  rw [step, need_eq here, pure_bind, Traced.outcome_bind, request_offer, refused,
    Checked.error_bind]

/-- A question is refused as it is about the dictionary. -/
theorem ask_refused {query : DictionaryQuery κ}
    (present : session.dictionaries.get? name = some held)
    (refused : (session.answer held query).outcome = .error refusal) :
    ((session.offer stamp).step (.ask name query)).outcome = .error refusal := by
  have here : (session.offer stamp).dictionaries.get? name = some held := present
  rw [step, need_eq here, pure_bind, Traced.outcome_bind, answer_offer, refused,
    Checked.error_bind]

/-- A bookmark that a dictionary does not accept is refused whatever it is handed over for. -/
theorem stale_refused (coherent : session.Coherent) (wellFormed : session.WellFormed command)
    (relies : name ∈ command.dictionaries) (hands : mark ∈ command.bookmarks)
    (present : session.dictionaries.get? name = some held)
    (marked : session.bookmarks.get? mark = some bookmark)
    (foreign : held.accepts bookmark = false) :
    ((session.offer stamp).step command).outcome = .error (.fault .staleBookmark) := by
  have rejects := Dictionary.rejects_of_not_accepts foreign
  cases command with
  | setValueAt target given value =>
    obtain rfl := List.mem_singleton.mp relies
    obtain rfl := List.mem_singleton.mp hands
    simp [step, need_eq present, need_eq marked, offer, rejects.write]
  | issue source wanted target =>
    obtain rfl := List.mem_singleton.mp relies
    apply issue_refused present
    cases wanted with
    | after given =>
      obtain rfl := List.mem_singleton.mp hands
      simp [request, need_eq marked, rejects.after]
    | before given =>
      obtain rfl := List.mem_singleton.mp hands
      simp [request, need_eq marked, rejects.before]
    | jump given steps =>
      obtain rfl := List.mem_singleton.mp hands
      simp [request, need_eq marked, rejects.jump]
    | jumpWithin given steps limitMark =>
      obtain ⟨here, hereMarked⟩ := wellFormed.bookmarks given List.mem_cons_self
      obtain ⟨limit, limitMarked⟩ :=
        wellFormed.bookmarks limitMark (List.mem_cons_of_mem _ List.mem_cons_self)
      have refused : held.jumpWithin here steps limit = .error .staleBookmark := by
        have oneForeign : held.accepts here = false ∨ held.accepts limit = false := by
          rcases List.mem_pair.mp hands with rfl | rfl
          · exact .inl (Option.some.inj (hereMarked.symm.trans marked) ▸ foreign)
          · exact .inr (Option.some.inj (limitMarked.symm.trans marked) ▸ foreign)
        simp [Dictionary.jumpWithin, coherent.distance_refused limitMarked present oneForeign]
      simp [request, need_eq hereMarked, need_eq limitMarked, refused]
    | _ => exact absurd hands List.not_mem_nil
  | ask source query =>
    obtain rfl := List.mem_singleton.mp relies
    apply ask_refused present
    cases query with
    | offsetOf given =>
      obtain rfl := List.mem_singleton.mp hands
      simp [answer, need_eq marked, rejects.offset]
    | entryAtBookmark given =>
      obtain rfl := List.mem_singleton.mp hands
      simp [answer, need_eq marked, rejects.entry]
    | distance start stop =>
      obtain ⟨here, hereMarked⟩ := wellFormed.bookmarks start List.mem_cons_self
      obtain ⟨there, thereMarked⟩ :=
        wellFormed.bookmarks stop (List.mem_cons_of_mem _ List.mem_cons_self)
      have refused : held.distance here there = .error .staleBookmark := by
        apply coherent.distance_refused thereMarked present
        rcases List.mem_pair.mp hands with rfl | rfl
        · exact .inl (Option.some.inj (hereMarked.symm.trans marked) ▸ foreign)
        · exact .inr (Option.some.inj (thereMarked.symm.trans marked) ▸ foreign)
      simp [answer, need_eq hereMarked, need_eq thereMarked, refused]
    | _ => exact absurd hands List.not_mem_nil
  | _ => first | exact absurd hands List.not_mem_nil | exact absurd relies List.not_mem_nil

/-- A command that needs an entry is refused at the end. -/
theorem atEnd_refused (needs : command.NeedsEntry name mark)
    (present : session.dictionaries.get? name = some held)
    (marked : session.bookmarks.get? mark = some bookmark)
    (accepted : held.accepts bookmark = true) (atEnd : bookmark.isEnd = true) :
    ((session.offer stamp).step command).outcome = .error (.fault .endBookmark) := by
  have none : bookmark.place = none := Option.isNone_iff_eq_none.mp atEnd
  have placeless : held.placeOf bookmark = .error .endBookmark := by
    simp [Dictionary.placeOf, Dictionary.validate, accepted, none]
  cases command with
  | setValueAt target given value =>
    obtain ⟨rfl, rfl⟩ := needs
    simp [step, need_eq present, need_eq marked, offer, Dictionary.setValueAt, placeless]
  | issue source wanted target =>
    cases wanted with
    | after given =>
      obtain ⟨rfl, rfl⟩ := needs
      apply issue_refused present
      simp [request, need_eq marked, Dictionary.bookmarkAfter, placeless]
    | _ => exact needs.elim
  | ask source query =>
    cases query with
    | entryAtBookmark given =>
      obtain ⟨rfl, rfl⟩ := needs
      apply ask_refused present
      simp [answer, need_eq marked, Dictionary.entryAt, placeless]
    | _ => exact needs.elim
  | _ => exact needs.elim

/-- Bookmarks of different states are refused wherever they are compared. -/
theorem incomparable_refused {first second : String} {left right : Bookmark κ ν}
    (compares : command.Compares first second)
    (leftMarked : session.bookmarks.get? first = some left)
    (rightMarked : session.bookmarks.get? second = some right)
    (apart : left.sameState right = false) :
    ((session.offer stamp).step command).outcome = .error (.fault .incomparableBookmarks) := by
  obtain ⟨refused, _⟩ := Bookmark.incomparable_of_apart apart
  cases command with
  | orderBookmarks given other =>
    obtain ⟨rfl, rfl⟩ := compares
    simp [step, need_eq leftMarked, need_eq rightMarked, offer, refused]
  | equalBookmarks given other =>
    obtain ⟨rfl, rfl⟩ := compares
    simp [step, need_eq leftMarked, need_eq rightMarked, offer, refused]
  | _ => exact compares.elim

/-- A jump passes a limit that it starts at or in front of and ends behind. -/
theorem passes_iff {offset limit : Nat} {steps : Int} :
    Dictionary.passes steps ((limit : Int) - offset) = true ↔ Stops offset limit steps := by
  unfold Dictionary.passes Stops
  split <;> simp only [decide_eq_true_eq] <;> omega

variable [Std.TransOrd κ]

/-- A command that breaks a precondition is refused for the cause that belongs to it. -/
theorem Breaks.refused (breaks : session.Breaks command cause) (coherent : session.Coherent)
    (wellFormed : session.WellFormed command) (stamp : Stamp) :
    ((session.offer stamp).step command).outcome = .error (.fault cause) := by
  cases breaks with
  | @branchRoom _ capacities small =>
    have refused : (Dictionary.empty capacities stamp : Checked (Dictionary κ ν)) =
        .error (.capacityTooSmall capacities.branch) := by
      simp [Dictionary.empty, Tree.empty, minCapacity, Nat.not_le.mpr small]
    simp [step, offer, refused]
  | @leafRoom _ capacities enough small =>
    have refused : (Dictionary.empty capacities stamp : Checked (Dictionary κ ν)) =
        .error (.capacityTooSmall capacities.leaf) := by
      simp [Dictionary.empty, Tree.empty, minCapacity, enough, Node.newLeaf,
        checkLeafCapacity, Nat.not_le.mpr small]
    simp [step, offer, refused]
  | @missingKey _ key held present absent =>
    have found := (Dictionary.answers_of_sound (coherent.sound present)).get key
    have refused : held.get key = .error .missingKey := by simp [Dictionary.get, found, absent]
    apply ask_refused present
    simp [answer, refused]
  | stale relies hands present marked foreign =>
    exact stale_refused coherent wellFormed relies hands present marked foreign
  | atEnd needs present marked accepted atEnd =>
    exact atEnd_refused needs present marked accepted atEnd
  | @atStart _ _ _ held bookmark present marked counted =>
    have marks := coherent.marks_of_counted marked present counted
    have refused : held.bookmarkBefore bookmark = .error .beforeStart := by
      rcases Dictionary.bookmarkBefore_cases (coherent.sound present) marks with
        ⟨_, refused⟩ | ⟨later, _⟩
      · exact refused
      · exact absurd later (Nat.lt_irrefl 0)
    apply issue_refused present
    simp [request, need_eq marked, refused]
  | @pastEnd _ _ held offset present past =>
    have refused : held.bookmarkAt offset = .error .bookmarkOffsetOutOfRange := by
      simp [Dictionary.bookmarkAt, Nat.not_le.mpr past]
    apply issue_refused present
    simp [request, refused]
  | @jump _ _ _ held bookmark offset steps present marked counted outside =>
    have refused : held.jump bookmark steps = .error .jumpOutOfRange := by
      have notInside : ¬ (0 ≤ offset + steps ∧ offset + steps ≤ held.size) := by omega
      simp [Dictionary.jump, counted, notInside]
    apply issue_refused present
    simp [request, need_eq marked, refused]
  | @jumpWithin _ _ _ _ held bookmark limit offset limitOffset steps present marked limitMarked
      counted limitCounted unstopped outside =>
    have refused : held.jumpWithin bookmark steps limit = .error .jumpOutOfRange := by
      have notInside : ¬ (0 ≤ offset + steps ∧ offset + steps ≤ held.size) := by omega
      have goesOn : Dictionary.passes steps ((limitOffset : Int) - offset) = false := by
        rw [Bool.eq_false_iff, ne_eq, passes_iff]
        exact unstopped
      simp [Dictionary.jumpWithin, Dictionary.distance, counted, limitCounted, goesOn,
        Dictionary.jump, notInside]
    apply issue_refused present
    simp [request, need_eq marked, need_eq limitMarked, refused]
  | incomparable compares leftMarked rightMarked apart =>
    exact incomparable_refused compares leftMarked rightMarked apart

end Commands

end DictionarySession

end CountedBTree
