import CountedBTree.Proofs.OffsetBijection

/-!
# The first occurrence of a key

Equal keys may lie in any nodes, and three searches look for them. The search for a value of
any of them stops at the first match on the way down. The searches for the first value and for
the first place go on to the leaf and keep the deepest match, and the count of smaller keys
goes the same way. They agree on whether there is an equal key, and the last three agree on the
first one in order.
-/

namespace CountedBTree

namespace Tree

variable {κ ν : Type} [Ord κ] {tree : Tree κ ν} {key : κ} {offset : Nat} {entry : κ × ν}
variable {place : Place κ ν}

/-- The entry at the offset is the first one in order with an equal key. -/
structure FirstAt (tree : Tree κ ν) (key : κ) (offset : Nat) (entry : κ × ν) : Prop where
  present : tree.toList[offset]? = some entry
  equal : (compare entry.1 key).isEq = true
  first : ∀ earlier < offset, ∀ other, tree.toList[earlier]? = some other →
    (compare other.1 key).isEq = false

/-- No entry has an equal key. -/
def Lacks (tree : Tree κ ν) (key : κ) : Prop :=
  ∀ entry ∈ tree.toList, (compare entry.1 key).isEq = false

/-- The searches for a key agree on the entry at the offset, and on its place. The search that
stops anywhere gives the value of some entry with an equal key. -/
structure Finds (tree : Tree κ ν) (key : κ) (offset : Nat) (entry : κ × ν)
    (place : Place κ ν) : Prop where
  firstValue_eq : tree.firstValue key = .ok (some entry.2)
  findFirst_eq : tree.findFirst key = .ok (some place)
  placeAt_eq : tree.placeAt offset = .ok place
  entry_eq : place.entry = .ok entry
  offsetOf_eq : tree.offsetOf place = .ok offset
  countLess_eq : tree.countLess key = .ok offset
  contains_eq : tree.contains key = .ok true
  anyValue_eq : ∃ other ∈ tree.toList, (compare other.1 key).isEq = true ∧
    tree.anyValue key = .ok (some other.2)
  single_eq : (∀ further other, tree.toList[further]? = some other →
      (compare other.1 key).isEq = true → further = offset) →
    tree.anyValue key = tree.firstValue key

/-- The searches for a key agree that there is none. -/
structure Misses (tree : Tree κ ν) (key : κ) : Prop where
  firstValue_eq : tree.firstValue key = .ok none
  findFirst_eq : tree.findFirst key = .ok none
  contains_eq : tree.contains key = .ok false
  anyValue_eq : tree.anyValue key = .ok none

/-- A search through all entries that finds nothing leaves none with an equal key. -/
theorem lacks_of_find
    (absent : tree.toList.find? (fun entry => (compare entry.1 key).isEq) = none) :
    tree.Lacks key := by
  intro entry member
  simpa using List.find?_eq_none.mp absent entry member

/-- There is only one first entry with an equal key. -/
theorem FirstAt.unique {other : Nat} {otherEntry : κ × ν} (firstAt : tree.FirstAt key offset entry)
    (otherAt : tree.FirstAt key other otherEntry) : offset = other ∧ entry = otherEntry := by
  have same : offset = other := by
    rcases Nat.lt_trichotomy offset other with less | same | greater
    · have unequal := otherAt.first offset less entry firstAt.present
      exact absurd (firstAt.equal.symm.trans unequal) (by decide)
    · exact same
    · have unequal := firstAt.first other greater otherEntry otherAt.present
      exact absurd (otherAt.equal.symm.trans unequal) (by decide)
  subst same
  exact ⟨rfl, Option.some.inj (firstAt.present.symm.trans otherAt.present)⟩

variable [Footprint κ] [Footprint ν] [Std.TransOrd κ]

/-- The first equal entry of a sound tree stands behind the entries with smaller keys. -/
theorem firstAt_of_find (sound : tree.Sound)
    (found : tree.toList.find? (fun entry => (compare entry.1 key).isEq) = some entry) :
    tree.FirstAt key (countBelow key tree.toList) entry := by
  rw [← sound.ascending.entryEqualTo_eq_find, entryEqualTo_eq_some] at found
  constructor
  · exact found.1
  · exact found.2
  · intro earlier before other present
    have within : (tree.toList.take (countBelow key tree.toList))[earlier]? = some other := by
      rw [List.getElem?_take_of_lt before, present]
    have smaller := (sound.ascending.cut_below key).take_countP other
      (List.mem_of_getElem? within)
    cases order : compare other.1 key <;> simp [order] at smaller ⊢

/-- With an equal key, the searches agree on its first occurrence. -/
theorem finds_of_find (sound : tree.Sound)
    (found : tree.toList.find? (fun entry => (compare entry.1 key).isEq) = some entry) :
    ∃ place, tree.Finds key (countBelow key tree.toList) entry place := by
  obtain ⟨height, shaped⟩ := sound.shaped
  have firstAt := firstAt_of_find sound found
  have some : tree.toList.any (fun entry => (compare entry.1 key).isEq) = true := by
    rw [← List.isSome_find?, found]
    rfl
  obtain ⟨located, answered, isSome, leads⟩ := Tree.findFirst_eq sound key
  obtain ⟨place, rfl⟩ := Option.isSome_iff_exists.mp (isSome.trans some)
  obtain ⟨looked, stopped, looksSome, isOf⟩ := Tree.anyValue_eq sound key
  obtain ⟨value, rfl⟩ := Option.isSome_iff_exists.mp (looksSome.trans some)
  obtain ⟨other, member, equal, rfl⟩ := isOf value rfl
  have leadsHere := leads place rfl
  obtain ⟨there, presentThere, shown⟩ := leadsHere.entry_eq shaped
  obtain rfl : entry = there := Option.some.inj (firstAt.present.symm.trans presentThere)
  have firstValue : tree.firstValue key = .ok (.some entry.2) := by
    rw [Tree.firstValue_eq sound key, found, Option.map_some]
  refine ⟨place, ?_⟩
  constructor
  case firstValue_eq => exact firstValue
  case findFirst_eq => exact answered
  case placeAt_eq => exact Tree.placeAt_eq sound leadsHere
  case entry_eq => exact shown
  case offsetOf_eq => exact Tree.offsetOf_eq sound leadsHere
  case countLess_eq => exact Tree.countLess_eq sound key
  case contains_eq => rw [Tree.contains_eq sound key, some]
  case anyValue_eq => exact ⟨other, member, equal, stopped⟩
  case single_eq =>
    intro single
    obtain ⟨further, present⟩ := List.mem_iff_getElem?.mp member
    obtain rfl := single further other present equal
    obtain rfl : entry = other := Option.some.inj (firstAt.present.symm.trans present)
    rw [stopped, firstValue]

/-- Without an equal key, the searches agree that there is none. -/
theorem Lacks.misses (sound : tree.Sound) (lacks : tree.Lacks key) : tree.Misses key := by
  have absent : tree.toList.find? (fun entry => (compare entry.1 key).isEq) = none := by
    rw [List.find?_eq_none]
    intro entry member
    simp [lacks entry member]
  have nowhere : tree.toList.any (fun entry => (compare entry.1 key).isEq) = false := by
    rw [← List.isSome_find?, absent]
    rfl
  obtain ⟨located, answered, isSome, _⟩ := Tree.findFirst_eq sound key
  obtain ⟨looked, stopped, looksSome, _⟩ := Tree.anyValue_eq sound key
  rw [nowhere, Option.isSome_eq_false_iff, Option.isNone_iff_eq_none] at isSome looksSome
  constructor
  case firstValue_eq => rw [Tree.firstValue_eq sound key, absent, Option.map_none]
  case findFirst_eq => rw [answered, isSome]
  case contains_eq => rw [Tree.contains_eq sound key, nowhere]
  case anyValue_eq => rw [stopped, looksSome]

variable {capacities : Capacities}

/-- In every tree that a run leads to, the searches for a key agree. If some entry has an equal
key, the first value and the first place are those of the first such entry in order, whose
offset is the number of smaller keys; the value of any equal entry is that of one, hence the
same when there is only one. Otherwise none of them finds anything. -/
theorem searches_agree (reached : tree.Reached capacities) (key : κ) :
    (∃ offset entry place, tree.FirstAt key offset entry ∧ tree.Finds key offset entry place) ∨
      tree.Lacks key ∧ tree.Misses key := by
  have sound := reached.isSound
  cases found : tree.toList.find? (fun entry => (compare entry.1 key).isEq) with
  | some entry =>
    left
    obtain ⟨place, finds⟩ := finds_of_find sound found
    exact ⟨_, entry, place, firstAt_of_find sound found, finds⟩
  | none =>
    right
    have lacks : tree.Lacks key := by
      intro entry member
      simpa using List.find?_eq_none.mp found entry member
    exact ⟨lacks, lacks.misses sound⟩

/-- One key spread over leaves and branches, whose first entry lies in a branch of the middle
level while the search for any of its values stops at the root, and a key that is missing. -/
theorem searches_agree_spread :
    spread.Reached ⟨2, 2⟩ ∧
      (∃ place, spread.FirstAt 2 2 (2, 0) ∧ spread.Finds 2 2 (2, 0) place ∧
        place.numbers = [0] ∧ place.slot = 0 ∧ spread.anyValue 2 = .ok (some 4)) ∧
      spread.Lacks 5 ∧ spread.Misses 5 := by
  refine ⟨spread_reached, ?_, ?_⟩
  · rcases searches_agree spread_reached 2 with ⟨offset, entry, place, firstAt, finds⟩ | ⟨lacks, _⟩
    · have counted := finds.countLess_eq
      obtain rfl : 2 = offset := Except.ok.inj counted
      obtain rfl : (2, 0) = entry := Option.some.inj firstAt.present
      have located := finds.findFirst_eq
      obtain rfl := Option.some.inj (Except.ok.inj located)
      exact ⟨_, firstAt, finds, rfl, rfl, rfl⟩
    · exact absurd (lacks (2, 0) (by decide)) (by decide)
  · rcases searches_agree spread_reached 5 with ⟨offset, entry, place, firstAt, finds⟩ | absent
    · have missed : spread.firstValue 5 = .ok none := rfl
      rw [finds.firstValue_eq] at missed
      exact absurd (Except.ok.inj missed) (Option.some_ne_none _)
    · exact absent

end Tree

end CountedBTree
