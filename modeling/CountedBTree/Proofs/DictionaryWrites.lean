import CountedBTree.Proofs.Bookmarks
import CountedBTree.Proofs.StableInsertion

/-!
# Writes to a dictionary

What each way of making or writing a dictionary gives: a sound tree, the entries listed
after it, and the stamp it was given. Mapping a key replaces the value of the first equal
key or adds the entry, and a list of entries is mapped one after the other. Only an empty
list leaves the stamp as it was. Each of these has a gate that tells, from the numbers of
entries along the way, whether it is answered.
-/

namespace CountedBTree

variable {κ ν : Type}

variable [Ord κ]

/-- The value of the first entry with an equal key. -/
def valueOf (key : κ) (entries : List (κ × ν)) : Option ν :=
  (entries.find? (fun entry => (compare entry.1 key).isEq)).map Prod.snd

/-- The entries after mapping several keys, one after the other. -/
def putAll (pairs entries : List (κ × ν)) : List (κ × ν) :=
  pairs.foldl (fun sofar pair => putFirst pair.1 pair.2 sofar) entries

/-- How many entries there are after each of several keys is mapped. -/
def countsAfter : List (κ × ν) → List (κ × ν) → List Nat
  | [], _ => []
  | pair :: pairs, entries =>
      (putFirst pair.1 pair.2 entries).length ::
        countsAfter pairs (putFirst pair.1 pair.2 entries)

/-- There is one count for each key that is mapped. -/
theorem length_countsAfter (pairs entries : List (κ × ν)) :
    (countsAfter pairs entries).length = pairs.length := by
  induction pairs generalizing entries with
  | nil => rfl
  | cons pair pairs inductionHypothesis => simp [countsAfter, inductionHypothesis]

section Gates

variable [Footprint κ] [Footprint ν]

/-- The gate of mapping several keys in a tree, one after the other. -/
def Tree.roomToPut (tree : Tree κ ν) (pairs : List (κ × ν)) : Checked Unit :=
  tree.capacities.roomAlong κ ν tree.generation (countsAfter pairs tree.toList)

/-- Mapping one key has a gate like any other write. -/
theorem Tree.roomToPut_single (tree : Tree κ ν) (key : κ) (value : ν) :
    tree.roomToPut [(key, value)] = tree.roomFor (putFirst key value tree.toList).length := by
  simp only [roomToPut, countsAfter, Capacities.roomAlong, roomFor]
  cases tree.capacities.roomFor κ ν tree.generation (putFirst key value tree.toList).length <;> rfl

/-- The gate of making an empty tree and mapping several keys in it. -/
def Capacities.roomToBuild (capacities : Capacities) (pairs : List (κ × ν)) : Checked Unit := do
  checkLeafCapacity κ ν capacities.leaf
  capacities.roomAlong κ ν 0 (countsAfter pairs [])

/-- The gate of building a dictionary is shut only at a limit. -/
theorem Capacities.roomToBuild_error {capacities : Capacities} {pairs : List (κ × ν)}
    {cause : Fault} (leafRoom : 2 ≤ capacities.leaf) (branchRoom : 2 ≤ capacities.branch)
    (shut : capacities.roomToBuild pairs = .error cause) : cause.IsLimit := by
  rcases Checked.bind_eq_error.mp shut with leaf | ⟨_, _, along⟩
  · exact checkLeafCapacity_error leafRoom leaf
  · exact roomAlong_error branchRoom along

end Gates

namespace Dictionary

variable [Footprint κ] [Footprint ν] {held written : Dictionary κ ν} {stamp : Stamp}

/-- A dictionary holds the given entries in a sound tree, under the given stamp. -/
structure Holds (dictionary : Dictionary κ ν) (contents : List (κ × ν)) (stamp : Stamp) :
    Prop where
  sound : dictionary.tree.Sound
  listed : dictionary.tree.toList = contents
  state_eq : dictionary.state = stamp

/-- A new dictionary holds nothing. -/
theorem empty_admits {capacities : Capacities} (leafRoom : 2 ≤ capacities.leaf)
    (branchRoom : 2 ≤ capacities.branch) (stamp : Stamp) :
    (checkLeafCapacity κ ν capacities.leaf).Admits (Dictionary.empty capacities stamp)
      (fun made : Dictionary κ ν => made.Holds [] stamp ∧ made.tree.capacities = capacities ∧
        made.tree.generation = 0) := by
  apply (Tree.empty_admits leafRoom branchRoom).bind_ok
  rintro tree ⟨sound, same, unwritten, none⟩
  exact ⟨⟨tree, stamp⟩, rfl, ⟨sound, none, rfl⟩, same, unwritten⟩

/-- A dictionary that was made new holds nothing. -/
theorem empty_holds {capacities : Capacities}
    (made : Dictionary.empty capacities stamp = .ok written) : written.Holds [] stamp := by
  obtain ⟨tree, built, ⟨⟩⟩ := Checked.bind_eq_ok.mp made
  obtain ⟨sound, _, _, none⟩ := Tree.sound_of_empty built
  exact ⟨sound, none, rfl⟩

/-- A sound dictionary can be cleared and then holds nothing. -/
theorem cleared_holds (sound : held.tree.Sound) (stamp : Stamp) :
    ∃ cleared, held.cleared stamp = .ok cleared ∧ cleared.Holds [] stamp := by
  obtain ⟨fresh, made, freshSound, _, _, none⟩ :=
    (Tree.empty_admits sound.leafRoom sound.branchRoom).answers sound.leafFits
  exact ⟨⟨fresh, stamp⟩, by simp [cleared, Tree.emptyLike, made], freshSound, none, rfl⟩

/-- Setting the value at a bookmark replaces the one at the offset it marks. The end has no
value. -/
theorem setValueAt_holds {bookmark : Bookmark κ ν} {offset : Nat} (sound : held.tree.Sound)
    (marks : held.Marks bookmark offset) (value : ν) (stamp : Stamp) :
    (bookmark.place = none ∧ held.setValueAt bookmark value stamp = .error .endBookmark) ∨
      ∃ key old, held.tree.toList[offset]? = some (key, old) ∧
        held.tree.checkGeneration.Admits (held.setValueAt bookmark value stamp)
          (fun answer => answer.1 = old ∧
            answer.2.Holds (held.tree.toList.set offset (key, value)) stamp) := by
  obtain ⟨accepted, ⟨atEnd, rfl⟩ | ⟨place, there, leads⟩⟩ := marks
  · left
    exact ⟨atEnd, by simp [setValueAt, placeOf, validate, accepted, atEnd]⟩
  · right
    obtain ⟨key, old, present, admits⟩ := Tree.setValue_leads sound leads value
    have unfolded : held.setValueAt bookmark value stamp =
        held.tree.setValue place value >>= fun written => pure (written.1, ⟨written.2, stamp⟩) := by
      simp [setValueAt, placeOf, validate, accepted, there]
    refine ⟨key, old, present, ?_⟩
    rw [unfolded]
    apply admits.bind_ok
    rintro ⟨_, after⟩ ⟨rfl, revalues⟩
    exact ⟨_, rfl, rfl, revalues.sound, revalues.listed, rfl⟩

variable [Std.TransOrd κ]

/-- Mapping a key answers the value it had and puts the entry in its place. -/
theorem insert_admits (sound : held.tree.Sound) (key : κ) (value : ν) (stamp : Stamp) :
    (held.tree.roomFor (putFirst key value held.tree.toList).length).Admits
      (held.insert key value stamp).outcome (fun answer =>
        answer.1 = valueOf key held.tree.toList ∧
          answer.2.Holds (putFirst key value held.tree.toList) stamp ∧
          answer.2.tree.capacities = held.tree.capacities ∧
          answer.2.tree.generation = held.tree.generation + 1) := by
  simp only [insert, Traced.outcome_bind]
  apply (Tree.updateFirstOrInsert_admits sound key value).bind_ok
  rintro ⟨old, tree⟩ ⟨previous, becomes⟩
  exact ⟨(old, ⟨tree, stamp⟩), rfl, previous, ⟨becomes.sound, becomes.listed, rfl⟩,
    becomes.capacities_eq, becomes.generation_eq⟩

/-- Changing the value of a key that is there replaces it where it stands. -/
theorem change_found (sound : held.tree.Sound) {key : κ} {entry : κ × ν} (change : ν → ν)
    (stamp : Stamp)
    (first : held.tree.toList.find? (fun entry => (compare entry.1 key).isEq) = some entry) :
    held.tree.checkGeneration.Admits (held.change key change stamp) (fun answer =>
      ∃ written, answer = some (entry.2, written) ∧
        written.Holds (held.tree.toList.set (countBelow key held.tree.toList)
          (entry.1, change entry.2)) stamp) := by
  apply (Tree.changeFirst_found sound change first).bind_ok
  rintro _ ⟨after, rfl, revalues⟩
  exact ⟨_, rfl, ⟨after, stamp⟩, rfl, revalues.sound, revalues.listed, rfl⟩

/-- Without the key nothing is changed. -/
theorem change_missed (sound : held.tree.Sound) {key : κ} (change : ν → ν) (stamp : Stamp)
    (absent : valueOf key held.tree.toList = none) :
    held.change key change stamp = .ok none := by
  have none : held.tree.toList.find? (fun entry => (compare entry.1 key).isEq) = none :=
    Option.map_eq_none_iff.mp absent
  simp [Dictionary.change, Tree.changeFirst_absent sound change none]

/-- A change that did nothing had no key to change. -/
theorem absent_of_missed (sound : held.tree.Sound) {key : κ} {change : ν → ν}
    (ran : held.change key change stamp = .ok none) : valueOf key held.tree.toList = none := by
  cases first : held.tree.toList.find? (fun entry => (compare entry.1 key).isEq) with
  | none => simp [valueOf, first]
  | some entry =>
    obtain ⟨written, answered, _⟩ := (change_found sound change stamp first).of_ok ran
    contradiction

/-- A change that was made had found the value it answers. -/
theorem present_of_found (sound : held.tree.Sound) {key : κ} {change : ν → ν} {old : ν}
    (ran : held.change key change stamp = .ok (some (old, written))) :
    ∃ entry, held.tree.toList.find? (fun entry => (compare entry.1 key).isEq) = some entry ∧
      old = entry.2 ∧ written.Holds (held.tree.toList.set (countBelow key held.tree.toList)
        (entry.1, change entry.2)) stamp := by
  cases first : held.tree.toList.find? (fun entry => (compare entry.1 key).isEq) with
  | none =>
    have absent : valueOf key held.tree.toList = none := by simp [valueOf, first]
    simp [change_missed sound change stamp absent] at ran
  | some entry =>
    obtain ⟨after, answered, holds⟩ := (change_found sound change stamp first).of_ok ran
    obtain ⟨rfl, rfl⟩ := Prod.mk.inj (Option.some.inj answered)
    exact ⟨entry, rfl, rfl, holds⟩

/-- Mapping several keys puts one entry after the other in its place, each through its own
gate. -/
theorem insertAll_admits (pairs : List (κ × ν)) (stamp : Stamp) {held : Dictionary κ ν}
    (sound : held.tree.Sound) (count : Nat) :
    (held.tree.roomToPut pairs).Admits
      (pairs.foldlM (insertCounting stamp) (count, held)).outcome (fun answer =>
        answer.2.Holds (putAll pairs held.tree.toList)
          (if pairs.isEmpty then held.state else stamp)) := by
  induction pairs generalizing held count with
  | nil => exact .of_open rfl ⟨sound, rfl, rfl⟩
  | cons pair pairs inductionHypothesis =>
    simp only [List.foldlM_cons, insertCounting, bind_assoc, pure_bind, Traced.outcome_bind]
    refine (insert_admits sound pair.1 pair.2 stamp).bind ?_
    rintro ⟨old, current⟩ ⟨_, holds, same, next⟩
    dsimp only at holds same next
    have further := inductionHypothesis holds.sound (if old.isSome then count + 1 else count)
    simp only [Tree.roomToPut, same, next, holds.listed, holds.state_eq, ite_self] at further
    exact further

/-- Mapping several keys puts one entry after the other in its place, under a new stamp. -/
theorem insertAll_holds {pairs : List (κ × ν)} (sound : held.tree.Sound) {replaced : Nat}
    (ran : (held.insertAll stamp pairs).outcome = .ok (replaced, written)) :
    written.Holds (putAll pairs held.tree.toList)
      (if pairs.isEmpty then held.state else stamp) :=
  (insertAll_admits pairs stamp sound 0).of_ok ran

/-- The gate of a dictionary that is built from a list looks at an empty leaf first. -/
theorem ofList_admits (pairs : List (κ × ν)) (stamp : Stamp) :
    (Capacities.standard.roomToBuild pairs).Admits (Dictionary.ofList pairs stamp).outcome
      (fun made => made.Holds (putAll pairs []) stamp) := by
  simp only [ofList, Capacities.roomToBuild, Traced.outcome_bind, Traced.outcome_lift]
  refine (empty_admits (by decide) (by decide) stamp).bind ?_
  rintro start ⟨holds, same, unwritten⟩
  have mapped := insertAll_admits pairs stamp holds.sound 0
  simp only [Tree.roomToPut, same, unwritten, holds.listed, holds.state_eq, ite_self] at mapped
  exact mapped.bind_ok (fun answer built => ⟨answer.2, rfl, built⟩)

/-- A dictionary built from a list has mapped its keys one after the other. -/
theorem ofList_holds {pairs : List (κ × ν)}
    (ran : (Dictionary.ofList pairs stamp).outcome = .ok written) :
    written.Holds (putAll pairs []) stamp :=
  (ofList_admits pairs stamp).of_ok ran

/-- The gate of a dictionary that is built from distinct keys looks at their number only. -/
theorem ofDistinct_admits (pairs : List (κ × ν)) (stamp : Stamp) :
    (Capacities.standard.roomToFill κ ν pairs.length).Admits
      (Dictionary.ofDistinct pairs stamp).outcome
      (fun made => made.Holds (pairs.foldl insertStable []) stamp) := by
  simp only [ofDistinct, Capacities.roomToFill, Traced.outcome_bind, Traced.outcome_lift]
  refine (Tree.empty_admits (by decide) (by decide)).bind ?_
  rintro start ⟨sound, same, unwritten, none⟩
  have inserted := Tree.insertAll_admits pairs sound
  rw [same, unwritten, Tree.size_eq sound, none] at inserted
  refine inserted.bind_ok ?_
  rintro tree ⟨treeSound, listed⟩
  exact ⟨⟨tree, stamp⟩, rfl, treeSound, listed, rfl⟩

/-- A dictionary built from distinct keys holds the entries in order. -/
theorem ofDistinct_holds {pairs : List (κ × ν)}
    (ran : (Dictionary.ofDistinct pairs stamp).outcome = .ok written) :
    written.Holds (pairs.foldl insertStable []) stamp :=
  (ofDistinct_admits pairs stamp).of_ok ran

end Dictionary

end CountedBTree
