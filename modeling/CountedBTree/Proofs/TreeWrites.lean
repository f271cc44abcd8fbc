import CountedBTree.Proofs.KeyLookup

/-!
# Writes to a tree

The remaining writes find an entry first and then change its value where it stands. All of
them take a sound tree to a sound tree, list the entries with one value replaced, and answer
the value replaced. Where the entry is there, the only thing that can stop them is that the
write itself cannot be counted, because no node is made; the insertion of a missing key is a
plain one.
-/

namespace CountedBTree

section Fresh

variable {κ ν : Type} [Footprint κ] [Footprint ν]

/-- A tree can only be made with room for a split in every node. -/
theorem Tree.room_of_empty {capacities : Capacities} {tree : Tree κ ν}
    (made : Tree.empty capacities = .ok tree) :
    2 ≤ capacities.leaf ∧ 2 ≤ capacities.branch := by
  by_cases branchRoom : minCapacity ≤ capacities.branch
  · by_cases leafRoom : minCapacity ≤ capacities.leaf
    · exact ⟨leafRoom, branchRoom⟩
    · simp [Tree.empty, Node.newLeaf, checkLeafCapacity, branchRoom, leafRoom] at made
  · simp [Tree.empty, branchRoom] at made

/-- An empty tree is sound and lists nothing. Capacities are refused that are too small for
a split, and a leaf that does not fit into memory. -/
theorem Tree.empty_admits [Ord κ] {capacities : Capacities} (leafRoom : 2 ≤ capacities.leaf)
    (branchRoom : 2 ≤ capacities.branch) :
    (checkLeafCapacity κ ν capacities.leaf).Admits (Tree.empty capacities)
      (fun tree : Tree κ ν => tree.Sound ∧ tree.capacities = capacities ∧
        tree.generation = 0 ∧ tree.toList = []) := by
  have several : minCapacity ≤ capacities.branch := branchRoom
  simp only [Tree.empty, Node.newLeaf, several, ↓reduceIte]
  cases fits : checkLeafCapacity κ ν capacities.leaf with
  | error cause => exact .inr ⟨cause, rfl, rfl⟩
  | ok =>
    refine .of_open rfl ⟨⟨leafRoom, branchRoom, fits, .inl rfl,
      ⟨0, .leaf (Nat.zero_le _) rfl⟩, List.Pairwise.nil, Nat.le_refl _, ?_⟩, rfl, rfl, rfl⟩
    simp [Fault.wordLimit]

/-- A tree that was made is sound, lists nothing, and was not written to. -/
theorem Tree.sound_of_empty [Ord κ] {capacities : Capacities} {tree : Tree κ ν}
    (made : Tree.empty capacities = .ok tree) :
    tree.Sound ∧ tree.capacities = capacities ∧ tree.generation = 0 ∧ tree.toList = [] := by
  obtain ⟨leafRoom, branchRoom⟩ := Tree.room_of_empty made
  exact (Tree.empty_admits leafRoom branchRoom).of_ok made

end Fresh

variable {κ ν : Type}

/-- A value can only be set at a place of the tree. -/
theorem Tree.trail_of_setValue {tree after : Tree κ ν} {place : Place κ ν} {value old : ν}
    (run : tree.setValue place value = .ok (old, after)) :
    ∃ trail, place.trail tree.root = .ok trail := by
  simp only [setValue, changeValueAlong, Checked.bind_eq_ok] at run
  obtain ⟨_, _, ⟨old, root⟩, run, _⟩ := run
  exact Node.follow_of_changeValueAlong run

/-- A change that cannot be counted is refused for that. -/
theorem Tree.changeValueAlong_exhausted {tree : Tree κ ν}
    (exhausted : ¬ tree.generation + 1 < Fault.wordLimit) (numbers : List Nat) (slot : Nat)
    (change : ν → ν) : tree.changeValueAlong numbers slot change = .error .sumTooLarge := by
  simp [changeValueAlong, checkGeneration_eq, exhausted]

variable [Ord κ]

/-- The entries after an updating insertion that prefers the first equal key. -/
def putFirst (key : κ) (value : ν) (entries : List (κ × ν)) : List (κ × ν) :=
  match entries.find? (fun entry => (compare entry.1 key).isEq) with
  | some entry => entries.set (countBelow key entries) (entry.1, value)
  | none => entries.insertIdx (countUpTo key entries) (key, value)

namespace Tree

variable [Footprint κ] [Footprint ν] {tree : Tree κ ν}

/-- Changing the value at the end of a trail changes it at the offset of the trail. -/
theorem changeValueAlong_admits (sound : tree.Sound) {slot offset : Nat} {numbers : List Nat}
    {trail : Trail κ ν} (followed : tree.root.follow slot numbers = .ok trail)
    (leads : Trail.Leads tree.root trail offset) (change : ν → ν) :
    ∃ key old, tree.toList[offset]? = some (key, old) ∧
      tree.checkGeneration.Admits (tree.changeValueAlong numbers slot change) (fun answer =>
        answer.1 = old ∧ tree.Revalues (tree.toList.set offset (key, change old)) answer.2) := by
  obtain ⟨height, shaped⟩ := sound.shaped
  obtain ⟨place, taken, rfl, rfl⟩ := Node.place_of_follow followed
  obtain ⟨key, old, changed, present, run, rewritten⟩ :=
    Node.changeValueAlong_rewritten change leads shaped taken
  refine ⟨key, old, present, ?_⟩
  by_cases counted : tree.generation + 1 < Fault.wordLimit
  · rw [changeValueAlong, checkGeneration_eq, if_pos counted, run]
    exact .of_open rfl ⟨rfl, rewritten_revalues sound counted shaped present rewritten⟩
  · rw [changeValueAlong_exhausted counted, checkGeneration_eq, if_neg counted]
    exact .inr ⟨.sumTooLarge, rfl, rfl⟩

/-- Setting the value at a place of the tree changes the entry the place leads to. -/
theorem setValue_admits (sound : tree.Sound) {place : Place κ ν} {trail : Trail κ ν}
    (followed : place.trail tree.root = .ok trail) (value : ν) :
    ∃ offset key old, Trail.Leads tree.root trail offset ∧
      tree.toList[offset]? = some (key, old) ∧
      tree.checkGeneration.Admits (tree.setValue place value) (fun answer =>
        answer.1 = old ∧ tree.Revalues (tree.toList.set offset (key, value)) answer.2) := by
  obtain ⟨height, shaped⟩ := sound.shaped
  obtain ⟨offset, leads⟩ := Node.follow_leads shaped followed
  obtain ⟨key, old, present, admits⟩ :=
    changeValueAlong_admits sound followed leads (fun _ => value)
  exact ⟨offset, key, old, leads, present, admits⟩

variable [Std.TransOrd κ]

/-- Changing the first entry with an equal key changes its value where it stands. -/
theorem changeFirst_found (sound : tree.Sound) {key : κ} {entry : κ × ν} (change : ν → ν)
    (first : tree.toList.find? (fun entry => (compare entry.1 key).isEq) = some entry) :
    tree.checkGeneration.Admits (tree.changeFirst key change) (fun answer =>
      ∃ after, answer = some (entry.2, after) ∧ tree.Revalues
        (tree.toList.set (countBelow key tree.toList) (entry.1, change entry.2)) after) := by
  obtain ⟨_, numbers, slot, found, located, followed, leads⟩ := locateFirst_found sound first
  obtain ⟨stored, old, present, admits⟩ := changeValueAlong_admits sound followed leads change
  rw [← sound.ascending.entryEqualTo_eq_find] at first
  have same : (stored, old) = entry :=
    Option.some.inj (present.symm.trans (entryEqualTo_eq_some.mp first).1)
  subst same
  rw [changeFirst, located, Checked.ok_bind]
  apply admits.bind_ok
  rintro ⟨_, after⟩ ⟨rfl, revalues⟩
  exact ⟨_, rfl, after, rfl, revalues⟩

/-- Without an equal key nothing is changed. -/
theorem changeFirst_absent (sound : tree.Sound) {key : κ} (change : ν → ν)
    (absent : tree.toList.find? (fun entry => (compare entry.1 key).isEq) = none) :
    tree.changeFirst key change = .ok none := by
  simp [changeFirst, (locateFirst_absent sound absent).2]

/-- With an equal key, an insertion that prefers the first one changes its value, answers the
old one, and reports nothing. -/
theorem updateFirstOrInsert_found (sound : tree.Sound) {key : κ} {entry : κ × ν} (value : ν)
    (first : tree.toList.find? (fun entry => (compare entry.1 key).isEq) = some entry) :
    (tree.updateFirstOrInsert key value).events = [] ∧
      tree.checkGeneration.Admits (tree.updateFirstOrInsert key value).outcome (fun answer =>
        answer.1 = some entry.2 ∧ tree.Revalues
          (tree.toList.set (countBelow key tree.toList) (entry.1, value)) answer.2) := by
  rcases changeFirst_found sound (fun _ => value) first with
    ⟨free, _, changed, after, rfl, revalues⟩ | ⟨cause, shut, refused⟩
  · rw [updateFirstOrInsert, changed, Traced.lift_ok, pure_bind]
    exact ⟨rfl, .inl ⟨free, _, rfl, rfl, revalues⟩⟩
  · rw [updateFirstOrInsert, refused, Traced.lift_error, Traced.refuse_bind]
    exact ⟨rfl, .inr ⟨cause, shut, rfl⟩⟩

/-- Without an equal key, an insertion that prefers the first one is a plain one that answers no
old value. -/
theorem updateFirstOrInsert_absent (sound : tree.Sound) {key : κ} (value : ν)
    (absent : tree.toList.find? (fun entry => (compare entry.1 key).isEq) = none) :
    tree.updateFirstOrInsert key value = tree.insertKey key value >>= fun after =>
      pure (none, after) := by
  have unchanged := changeFirst_absent sound (fun _ => value) absent
  simp only [updateFirstOrInsert, unchanged, Traced.lift_ok, pure_bind]

/-- An insertion that prefers the first equal key changes its value and answers the old one,
or inserts like a plain one, where there is room for what it leaves. -/
theorem updateFirstOrInsert_admits (sound : tree.Sound) (key : κ) (value : ν) :
    (tree.roomFor (putFirst key value tree.toList).length).Admits
      (tree.updateFirstOrInsert key value).outcome (fun answer =>
        answer.1 = (tree.toList.find? (fun entry => (compare entry.1 key).isEq)).map Prod.snd ∧
          tree.Becomes (putFirst key value tree.toList) answer.2) := by
  rw [putFirst]
  cases first : tree.toList.find? (fun entry => (compare entry.1 key).isEq) with
  | some entry =>
    have kept : (tree.toList.set (countBelow key tree.toList) (entry.1, value)).length =
        tree.size := by
      rw [List.length_set, size_eq sound]
    simp only [kept, sound.roomFor_size]
    exact (updateFirstOrInsert_found sound value first).2.imp
      (fun answer _ ⟨previous, revalues⟩ => ⟨previous, revalues.toBecomes⟩)
  | none =>
    rw [updateFirstOrInsert_absent sound value first, Traced.outcome_bind]
    simp only [length_inserted sound key value]
    exact (insertKey_admits sound key value).bind_ok
      (fun after becomes => ⟨(none, after), rfl, rfl, becomes⟩)

end Tree

end CountedBTree
