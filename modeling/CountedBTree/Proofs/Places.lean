import CountedBTree.Proofs.TreeReading
import CountedBTree.Proofs.TreeWrites

/-!
# Places by offset

A place leads to an offset of a root when it is what remains of a trail that leads there. It
gives its trail back, so everything that holds of trails carries over: the place knows its
entry, moves to the neighbouring offsets, and inside a leaf to any other slot. Each way in
which a tree hands out a place hands out one that leads to the offset meant.
-/

namespace CountedBTree

variable {κ ν : Type}

/-- The place leads to the entry with `offset` entries below the root in front of it. -/
def Place.Leads (root : Node κ ν) (place : Place κ ν) (offset : Nat) : Prop :=
  ∃ trail, Place.ofTrail trail = some place ∧ Trail.Leads root trail offset

/-- A trail that leads to an entry leaves a place that leads there. -/
theorem Trail.Leads.toPlace {root : Node κ ν} {trail : Trail κ ν} {offset : Nat}
    (leads : Trail.Leads root trail offset) :
    ∃ place, Place.ofTrail trail = some place ∧ Place.Leads root place offset := by
  obtain ⟨place, taken, _⟩ := leads.place
  exact ⟨place, taken, trail, taken, leads⟩

/-- In a leaf, the slots are neighbouring offsets. -/
theorem Trail.Leads.shift {root : Node κ ν} {trail : Trail κ ν} {place : Place κ ν}
    {offset : Nat} (leads : Trail.Leads root trail offset)
    (taken : Place.ofTrail trail = some place) (inLeaf : place.node.isLeaf = true) :
    ∃ base, offset = base + place.slot ∧ ∀ slot < place.node.size,
      ∃ moved, Place.ofTrail moved = some { place with slot := slot } ∧
        Trail.Leads root moved (base + slot) := by
  induction leads generalizing place with
  | @leaf capacity total slot entries inside =>
    cases taken
    refine ⟨0, by simp, ?_⟩
    intro other within
    exact ⟨[⟨.leaf capacity total entries, other⟩], rfl, by simpa using .leaf within⟩
  | separator found inside =>
    cases taken
    simp [Node.isLeaf] at inLeaf
  | @child capacity total number offset entries children child rest found lower
      inductionHypothesis =>
    obtain ⟨below, belowTaken, _⟩ := lower.place
    obtain rfl : { below with numbers := number :: below.numbers } = place :=
      Option.some.inj ((Place.ofTrail_cons _ belowTaken).symm.trans taken)
    obtain ⟨base, rfl, slots⟩ := inductionHypothesis belowTaken inLeaf
    refine ⟨(Node.inFront entries children number).length + base, by simp [Nat.add_assoc], ?_⟩
    intro slot within
    obtain ⟨moved, movedTaken, leads⟩ := slots slot within
    refine ⟨⟨.branch capacity total entries children, number⟩ :: moved, ?_, ?_⟩
    · exact Place.ofTrail_cons ⟨.branch capacity total entries children, number⟩ movedTaken
    · rw [Nat.add_assoc]
      exact .child found leads

namespace Place

/-- The entry of a place is the one its trail stops at. -/
theorem entry_ofTrail {trail : Trail κ ν} {place : Place κ ν}
    (taken : ofTrail trail = some place) : trail.entry? = some <$> place.entry := by
  induction trail generalizing place with
  | nil => simp [ofTrail] at taken
  | cons frame rest inductionHypothesis =>
    cases rest with
    | nil =>
      obtain rfl : ⟨[], frame.number, frame.node⟩ = place := by simpa [ofTrail] using taken
      cases found : frame.node.entryAt frame.number <;>
        simp [Trail.entry?, Trail.last?, Place.entry, found]
    | cons next rest =>
      obtain ⟨below, belowTaken, rfl⟩ : ∃ below, ofTrail (next :: rest) = some below ∧
          { below with numbers := frame.number :: below.numbers } = place := by
        simpa [ofTrail] using taken
      have reached := inductionHypothesis belowTaken
      rw [Trail.entry_cons frame (by simp)]
      exact reached

namespace Leads

variable {capacities : Capacities} {height offset : Nat} {root : Node κ ν} {place : Place κ ν}

/-- Following a place from its root gives a trail to its offset. -/
theorem trail_eq (leads : place.Leads root offset) :
    ∃ trail, place.trail root = .ok trail ∧ Trail.Leads root trail offset := by
  obtain ⟨trail, taken, leads⟩ := leads
  obtain ⟨other, otherTaken, followed⟩ := leads.place
  obtain rfl : place = other := Option.some.inj (taken.symm.trans otherTaken)
  exact ⟨trail, followed, leads⟩

theorem offset_lt (leads : place.Leads root offset)
    (shaped : Node.Shaped capacities height root) : offset < root.toList.length := by
  obtain ⟨trail, _, leads⟩ := leads
  exact leads.offset_lt shaped

/-- The entry at a place is the one at its offset. -/
theorem entry_eq (leads : place.Leads root offset)
    (shaped : Node.Shaped capacities height root) :
    ∃ entry, root.toList[offset]? = some entry ∧ place.entry = .ok entry := by
  obtain ⟨trail, taken, leads⟩ := leads
  obtain ⟨entry, present, found⟩ := leads.entry_eq shaped
  refine ⟨entry, present, ?_⟩
  rw [entry_ofTrail taken] at found
  cases reached : place.entry with
  | error cause => simp [reached] at found
  | ok other => simpa [reached] using found

/-- The next place leads to the next offset, and the last place has none. -/
theorem advanced_eq (leads : place.Leads root offset)
    (shaped : Node.Shaped capacities height root) :
    ∃ moved, place.advanced root = .ok moved ∧
      ((offset + 1 = root.toList.length ∧ moved = none) ∨
        ∃ next, moved = some next ∧ next.Leads root (offset + 1)) := by
  obtain ⟨trail, followed, leads⟩ := leads.trail_eq
  have inside := leads.offset_lt shaped
  rcases Nat.lt_or_eq_of_le inside with more | last
  · obtain ⟨moved, stepped, leads⟩ := leads.next_leads shaped more
    obtain ⟨next, taken, leads⟩ := leads.toPlace
    exact ⟨some next, by simp [advanced, followed, stepped, taken], .inr ⟨next, rfl, leads⟩⟩
  · have stepped := leads.next_last shaped last
    exact ⟨none, by simp [advanced, followed, stepped, ofTrail], .inl ⟨last, rfl⟩⟩

/-- The previous place leads to the offset before, and the first place has none. -/
theorem retreated_eq (leads : place.Leads root offset)
    (shaped : Node.Shaped capacities height root) :
    ∃ moved, place.retreated root = .ok moved ∧
      ((offset = 0 ∧ moved = none) ∨ ∃ before previous, offset = before + 1 ∧
        moved = some previous ∧ previous.Leads root before) := by
  obtain ⟨trail, followed, leads⟩ := leads.trail_eq
  cases offset with
  | zero =>
    have stepped := leads.prev_first shaped rfl
    exact ⟨none, by simp [retreated, followed, stepped, ofTrail], .inl ⟨rfl, rfl⟩⟩
  | succ offset =>
    obtain ⟨moved, stepped, leads⟩ := leads.prev_leads shaped
    obtain ⟨previous, taken, leads⟩ := leads.toPlace
    exact ⟨some previous, by simp [retreated, followed, stepped, taken],
      .inr ⟨offset, previous, rfl, rfl, leads⟩⟩

/-- A place shifted inside its leaf leads as far away as it was shifted. -/
theorem shiftedInLeaf (leads : place.Leads root offset) {distance : Int} {moved : Place κ ν}
    (shifted : place.shiftedInLeaf distance = some moved) :
    ∃ there : Nat, (there : Int) = offset + distance ∧ moved.Leads root there := by
  obtain ⟨trail, taken, leads⟩ := leads
  simp only [Place.shiftedInLeaf] at shifted
  split at shifted
  · next stays =>
    simp only [Bool.and_eq_true, decide_eq_true_eq] at stays
    obtain ⟨⟨inLeaf, low⟩, high⟩ := stays
    obtain ⟨base, rfl, slots⟩ := leads.shift taken inLeaf
    obtain rfl := Option.some.inj shifted
    have within : (place.slot + distance : Int).toNat < place.node.size := by omega
    obtain ⟨reached, reachedTaken, leads⟩ := slots _ within
    exact ⟨_, by omega, reached, reachedTaken, leads⟩
  · simp at shifted

end Leads

end Place

namespace Tree

variable [Ord κ] [Footprint κ] [Footprint ν] {tree : Tree κ ν}

/-- The place of the first entry leads to offset zero; an empty tree has none. -/
theorem firstPlace_eq (sound : tree.Sound) :
    ∃ found, tree.firstPlace = .ok found ∧
      ((tree.toList = [] ∧ found = none) ∨
        ∃ place, found = some place ∧ place.Leads tree.root 0) := by
  obtain ⟨height, shaped⟩ := sound.shaped
  by_cases occupied : tree.root.toList = []
  · have ends := shaped.ends_empty occupied
    exact ⟨none, by simp [Tree.firstPlace, ends.1, Place.ofTrail], .inl ⟨occupied, rfl⟩⟩
  · obtain ⟨trail, descended, leads⟩ := shaped.leftmost_leads occupied
    obtain ⟨place, taken, leads⟩ := leads.toPlace
    exact ⟨some place, by simp [Tree.firstPlace, descended, taken], .inr ⟨place, rfl, leads⟩⟩

/-- The place of the last entry leads to the last offset; an empty tree has none. -/
theorem lastPlace_eq (sound : tree.Sound) :
    ∃ found, tree.lastPlace = .ok found ∧
      ((tree.toList = [] ∧ found = none) ∨
        ∃ place, found = some place ∧ place.Leads tree.root (tree.toList.length - 1)) := by
  obtain ⟨height, shaped⟩ := sound.shaped
  by_cases occupied : tree.root.toList = []
  · have ends := shaped.ends_empty occupied
    exact ⟨none, by simp [Tree.lastPlace, ends.2, Place.ofTrail], .inl ⟨occupied, rfl⟩⟩
  · obtain ⟨trail, descended, leads⟩ := shaped.rightmost_leads occupied
    obtain ⟨place, taken, leads⟩ := leads.toPlace
    exact ⟨some place, by simp [Tree.lastPlace, descended, taken], .inr ⟨place, rfl, leads⟩⟩

/-- The place at an offset leads there. -/
theorem placeAt_leads (sound : tree.Sound) {offset : Nat} (inside : offset < tree.size) :
    ∃ place, tree.placeAt offset = .ok place ∧ place.Leads tree.root offset := by
  obtain ⟨height, shaped⟩ := sound.shaped
  have within : offset < tree.root.toList.length := shaped.total_eq ▸ inside
  obtain ⟨trail, sought, leads⟩ := Node.seekOffset_leads shaped within
  obtain ⟨place, taken, leads⟩ := leads.toPlace
  exact ⟨place, by simp [Tree.placeAt, inside, sought, taken], leads⟩

/-- The offset of a place is the one it leads to. -/
theorem offsetOf_eq (sound : tree.Sound) {place : Place κ ν} {offset : Nat}
    (leads : place.Leads tree.root offset) : tree.offsetOf place = .ok offset := by
  obtain ⟨height, shaped⟩ := sound.shaped
  obtain ⟨trail, followed, leads⟩ := leads.trail_eq
  have position := leads.position_eq shaped sound.small
  simp [Tree.offsetOf, followed, position]

/-- The place found for a key leads to the first equal entry, if there is one. -/
theorem findFirst_eq [Std.TransOrd κ] (sound : tree.Sound) (key : κ) :
    ∃ found, tree.findFirst key = .ok found ∧
      found.isSome = tree.toList.any (fun entry => (compare entry.1 key).isEq) ∧
      ∀ place, found = some place → place.Leads tree.root (countBelow key tree.toList) := by
  rw [← List.isSome_find?]
  cases first : tree.toList.find? (fun entry => (compare entry.1 key).isEq) with
  | none =>
    refine ⟨none, ?_, rfl, by simp⟩
    simp [Tree.findFirst, (locateFirst_absent sound first).2]
  | some entry =>
    obtain ⟨_, numbers, slot, trail, located, followed, leads⟩ := locateFirst_found sound first
    obtain ⟨place, taken, leads⟩ := leads.toPlace
    refine ⟨some place, by simp [Tree.findFirst, located, followed, taken], rfl, ?_⟩
    rintro _ ⟨⟩
    exact leads

/-- Setting the value at a place changes the entry at its offset. -/
theorem setValue_leads (sound : tree.Sound) {place : Place κ ν} {offset : Nat}
    (leads : place.Leads tree.root offset) (value : ν) :
    ∃ key old, tree.toList[offset]? = some (key, old) ∧
      tree.checkGeneration.Admits (tree.setValue place value) (fun answer =>
        answer.1 = old ∧ tree.Revalues (tree.toList.set offset (key, value)) answer.2) := by
  obtain ⟨trail, followed, leads⟩ := leads.trail_eq
  exact changeValueAlong_admits sound followed leads (fun _ => value)

end Tree

end CountedBTree
