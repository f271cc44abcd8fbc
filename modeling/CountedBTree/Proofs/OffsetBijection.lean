import CountedBTree.Proofs.Places
import CountedBTree.Proofs.TreeRuns

/-!
# One position for every offset

The offsets of a branch fall into blocks, one for each child, with a separator between any
two of them. An offset therefore determines the child or separator it falls on, and by
induction the whole trail that leads to it. So seeking an offset and adding up the counts
along a trail undo each other: every trail that can be followed from the root is the one that
seeking its position gives, and there are as many of them as entries.
-/

namespace CountedBTree

variable {κ ν : Type}

namespace Node

section Blocks

variable {entries : List (κ × ν)} {children : List (Node κ ν)} {number : Nat}
variable {child : Node κ ν}

/-- A child, and the separator after it, lie in front of every later child. -/
theorem length_inFront_lt (arity : children.length = entries.length + 1)
    (found : children[number]? = some child) {later : Nat} (less : number < later)
    (inside : later ≤ entries.length) :
    (inFront entries children number).length + child.toList.length <
      (inFront entries children later).length := by
  induction later, less using Nat.le_induction with
  | base =>
    have next := length_inFront_succ arity found (by omega)
    change _ < (inFront entries children (number + 1)).length
    omega
  | succ later _ inductionHypothesis =>
    have foundLater : children[later]? = some children[later] :=
      List.getElem?_eq_getElem (by omega)
    have next := length_inFront_succ arity foundLater (by omega)
    have shorter := inductionHypothesis (by omega)
    omega

/-- An offset in a child or directly behind it determines the child. -/
theorem number_unique (arity : children.length = entries.length + 1)
    (found : children[number]? = some child) {other offset otherOffset : Nat}
    {otherChild : Node κ ν} (foundOther : children[other]? = some otherChild)
    (within : offset ≤ child.toList.length) (otherWithin : otherOffset ≤ otherChild.toList.length)
    (same : (inFront entries children number).length + offset =
      (inFront entries children other).length + otherOffset) : number = other := by
  have bound := (List.getElem?_eq_some_iff.mp found).1
  have otherBound := (List.getElem?_eq_some_iff.mp foundOther).1
  rcases Nat.lt_trichotomy number other with less | equal | greater
  · have beyond := length_inFront_lt arity found less (by omega)
    omega
  · exact equal
  · have beyond := length_inFront_lt arity foundOther greater (by omega)
    omega

end Blocks

end Node

namespace Trail.Leads

variable {capacities : Capacities} {height offset : Nat} {node : Node κ ν}
variable {trail other : Trail κ ν}

/-- Only one trail leads to an offset.

The induction follows the first trail. At a branch both trails fall on the same block, and the
offset inside the block tells the separator, which lies behind all entries of the child before
it, from an entry of that child. -/
theorem unique (leads : Leads node trail offset) (otherLeads : Leads node other offset)
    (shaped : Node.Shaped capacities height node) : trail = other := by
  induction leads generalizing height other with
  | leaf inside =>
    cases otherLeads
    rfl
  | @separator capacity total slot entries children child found inside =>
    generalize same : _ + child.toList.length = position at otherLeads
    cases shaped with
    | branch fits separated arity counted shaped filled =>
      cases otherLeads with
      | separator foundOther otherInside =>
        obtain rfl := Node.number_unique arity found foundOther (Nat.le_refl _) (Nat.le_refl _)
          same
        rfl
      | child foundOther lower =>
        have within := lower.offset_lt (shaped _ (List.mem_of_getElem? foundOther))
        obtain rfl := Node.number_unique arity found foundOther (Nat.le_refl _)
          (Nat.le_of_lt within) same
        obtain rfl := Option.some.inj (found.symm.trans foundOther)
        omega
  | @child capacity total number offset entries children child rest found lower
      inductionHypothesis =>
    generalize same : _ + offset = position at otherLeads
    cases shaped with
    | branch fits separated arity counted shaped filled =>
      have childShaped := shaped child (List.mem_of_getElem? found)
      have within := lower.offset_lt childShaped
      cases otherLeads with
      | separator foundOther otherInside =>
        obtain rfl := Node.number_unique arity found foundOther (Nat.le_of_lt within)
          (Nat.le_refl _) same
        obtain rfl := Option.some.inj (found.symm.trans foundOther)
        omega
      | child foundOther otherLower =>
        have otherWithin := otherLower.offset_lt (shaped _ (List.mem_of_getElem? foundOther))
        obtain rfl := Node.number_unique arity found foundOther (Nat.le_of_lt within)
          (Nat.le_of_lt otherWithin) same
        obtain rfl := Option.some.inj (found.symm.trans foundOther)
        obtain rfl := Nat.add_left_cancel same
        rw [inductionHypothesis otherLower childShaped]

/-- A trail leads to one offset only, the one that its counts add up to. -/
theorem offset_unique {otherOffset : Nat} (leads : Leads node trail offset)
    (otherLeads : Leads node trail otherOffset) (shaped : Node.Shaped capacities height node)
    (small : node.total < Fault.wordLimit) : offset = otherOffset := by
  have counted := leads.position_eq shaped small
  rw [otherLeads.position_eq shaped small] at counted
  exact (Option.some.inj (Except.ok.inj counted)).symm

/-- Seeking the offset that a trail leads to gives the trail. -/
theorem seekOffset_eq (leads : Leads node trail offset)
    (shaped : Node.Shaped capacities height node) : node.seekOffset offset = .ok trail := by
  obtain ⟨sought, answered, soughtLeads⟩ :=
    Node.seekOffset_leads shaped (leads.offset_lt shaped)
  rw [answered, soughtLeads.unique leads shaped]

end Trail.Leads

/-- Numbers and a slot that can be followed are those of a place that leads to some offset. -/
theorem Node.place_leads_of_follow {capacities : Capacities} {height slot : Nat}
    {node : Node κ ν} {numbers : List Nat} {trail : Trail κ ν}
    (shaped : Node.Shaped capacities height node)
    (followed : node.follow slot numbers = .ok trail) :
    ∃ offset place, Trail.Leads node trail offset ∧ Place.ofTrail trail = some place ∧
      place.numbers = numbers ∧ place.slot = slot := by
  obtain ⟨offset, leads⟩ := follow_leads shaped followed
  obtain ⟨place, taken, sameNumbers, sameSlot⟩ := place_of_follow followed
  exact ⟨offset, place, leads, taken, sameNumbers, sameSlot⟩

namespace Tree

variable [Ord κ] [Footprint κ] [Footprint ν] {tree : Tree κ ν} {trail : Trail κ ν} {offset : Nat}

/-- The trail is the one that seeking the offset gives. It shows the entry there, and the
counts along it add up to the offset. -/
structure ShowsAt (tree : Tree κ ν) (trail : Trail κ ν) (offset : Nat) (entry : κ × ν) :
    Prop where
  present : tree.toList[offset]? = some entry
  sought : tree.root.seekOffset offset = .ok trail
  shown : trail.entry? = .ok (some entry)
  counted : trail.position? = .ok (some offset)

/-- A trail that leads to an offset shows the entry there. -/
theorem showsAt_of_leads (sound : tree.Sound) (leads : Trail.Leads tree.root trail offset) :
    ∃ entry, tree.ShowsAt trail offset entry := by
  obtain ⟨height, shaped⟩ := sound.shaped
  obtain ⟨entry, present, shown⟩ := leads.entry_eq shaped
  exact ⟨entry, present, leads.seekOffset_eq shaped, shown, leads.position_eq shaped sound.small⟩

/-- The place at an offset is the only one that leads there. -/
theorem placeAt_eq (sound : tree.Sound) {place : Place κ ν}
    (leads : place.Leads tree.root offset) : tree.placeAt offset = .ok place := by
  obtain ⟨height, shaped⟩ := sound.shaped
  have inside : offset < tree.size :=
    Nat.lt_of_lt_of_eq (leads.offset_lt shaped) shaped.total_eq.symm
  obtain ⟨trail, taken, leads⟩ := leads
  simp [placeAt, inside, leads.seekOffset_eq shaped, taken]

/-- As many pairs of numbers and a slot can be followed from the root as there are entries.
Every offset has one such pair, and a pair leads to one offset only. -/
theorem followed_count (sound : tree.Sound) :
    ∃ accepted : List (List Nat × Nat), accepted.length = tree.toList.length ∧
      accepted.Nodup ∧ ∀ numbers slot, (numbers, slot) ∈ accepted ↔
        ∃ trail, tree.root.follow slot numbers = .ok trail := by
  obtain ⟨height, shaped⟩ := sound.shaped
  have everyOffset : ∀ offset < tree.root.toList.length, ∃ pair : List Nat × Nat,
      ∃ trail, tree.root.follow pair.2 pair.1 = .ok trail ∧
        Trail.Leads tree.root trail offset := by
    intro offset inside
    obtain ⟨trail, _, leads⟩ := Node.seekOffset_leads shaped inside
    obtain ⟨place, _, followed⟩ := leads.place
    exact ⟨(place.numbers, place.slot), trail, followed, leads⟩
  choose! pairAt leadsAt using everyOffset
  refine ⟨(List.range tree.root.toList.length).map pairAt, by simp [toList], ?_, ?_⟩
  · refine List.Nodup.map_on ?_ List.nodup_range
    intro first within second withinSecond same
    obtain ⟨trail, followed, leads⟩ := leadsAt first (List.mem_range.mp within)
    obtain ⟨other, followedOther, leadsOther⟩ := leadsAt second (List.mem_range.mp withinSecond)
    rw [same, followedOther] at followed
    obtain rfl := Except.ok.inj followed
    exact leads.offset_unique leadsOther shaped sound.small
  · intro numbers slot
    constructor
    · intro member
      obtain ⟨offset, within, same⟩ := List.mem_map.mp member
      obtain ⟨trail, followed, _⟩ := leadsAt offset (List.mem_range.mp within)
      rw [same] at followed
      exact ⟨trail, followed⟩
    · rintro ⟨trail, followed⟩
      obtain ⟨offset, place, leads, taken, rfl, rfl⟩ := Node.place_leads_of_follow shaped followed
      have inside := leads.offset_lt shaped
      obtain ⟨other, followedOther, leadsOther⟩ := leadsAt offset inside
      obtain rfl := leads.unique leadsOther shaped
      obtain ⟨otherPlace, otherTaken, sameNumbers, sameSlot⟩ := Node.place_of_follow followedOther
      obtain rfl := Option.some.inj (taken.symm.trans otherTaken)
      refine List.mem_map.mpr ⟨offset, List.mem_range.mpr inside, ?_⟩
      rw [sameNumbers, sameSlot]

variable [Std.TransOrd κ] {capacities : Capacities}

/-- In every tree that a run leads to, positions and offsets determine each other. Every
offset inside has a trail and a place that show the entry there and give the offset back, and
past the end there is none. Every pair of child numbers and a slot that can be followed from
the root is that of the trail to its position, so there are as many such pairs as entries. -/
theorem positions_biject (reached : tree.Reached capacities) :
    (∀ offset < tree.toList.length, ∃ trail place entry, tree.ShowsAt trail offset entry ∧
      tree.entryAt? offset = .ok (some entry) ∧ tree.placeAt offset = .ok place ∧
      place.entry = .ok entry ∧ tree.offsetOf place = .ok offset) ∧
    (∀ offset, tree.toList.length ≤ offset →
      tree.root.seekOffset offset = .ok [] ∧ tree.entryAt? offset = .ok none) ∧
    (∀ numbers slot trail, tree.root.follow slot numbers = .ok trail →
      ∃ position place entry, position < tree.toList.length ∧
        tree.ShowsAt trail position entry ∧ Place.ofTrail trail = some place ∧
        place.numbers = numbers ∧ place.slot = slot) ∧
    ∃ accepted : List (List Nat × Nat), accepted.length = tree.toList.length ∧
      accepted.Nodup ∧ ∀ numbers slot, (numbers, slot) ∈ accepted ↔
        ∃ trail, tree.root.follow slot numbers = .ok trail := by
  have sound := reached.isSound
  obtain ⟨height, shaped⟩ := sound.shaped
  refine ⟨?_, ?_, ?_, followed_count sound⟩
  · intro offset inside
    obtain ⟨trail, _, leads⟩ := Node.seekOffset_leads shaped inside
    obtain ⟨entry, shows⟩ := showsAt_of_leads sound leads
    obtain ⟨place, _, placeLeads⟩ := leads.toPlace
    obtain ⟨placed, presentThere, reads⟩ := placeLeads.entry_eq shaped
    obtain rfl : entry = placed := Option.some.inj (shows.present.symm.trans presentThere)
    refine ⟨trail, place, entry, shows, ?_, placeAt_eq sound placeLeads, reads,
      offsetOf_eq sound placeLeads⟩
    rw [entryAt_eq sound, shows.present]
  · intro offset past
    refine ⟨Node.seekOffset_past shaped past, ?_⟩
    rw [entryAt_eq sound, List.getElem?_eq_none past]
  · intro numbers slot trail followed
    obtain ⟨position, place, leads, taken, sameNumbers, sameSlot⟩ :=
      Node.place_leads_of_follow shaped followed
    obtain ⟨entry, shows⟩ := showsAt_of_leads sound leads
    exact ⟨position, place, entry, leads.offset_lt shaped, shows, taken, sameNumbers, sameSlot⟩

/-- A separator with entries on two levels below it, and the first offset past the end. -/
theorem positions_biject_spread :
    spread.Reached ⟨2, 2⟩ ∧
      (∃ trail place, spread.ShowsAt trail 4 (2, 4) ∧ spread.placeAt 4 = .ok place ∧
        spread.offsetOf place = .ok 4) ∧
      spread.root.seekOffset 8 = .ok [] ∧
      (∃ position trail entry, spread.root.follow 0 [1] = .ok trail ∧
        spread.ShowsAt trail position entry) ∧
      ∃ accepted : List (List Nat × Nat), accepted.length = 8 ∧ accepted.Nodup ∧
        ∀ numbers slot, (numbers, slot) ∈ accepted ↔
          ∃ trail, spread.root.follow slot numbers = .ok trail := by
  obtain ⟨inside, past, followed, accepted⟩ := positions_biject spread_reached
  obtain ⟨trail, place, entry, shows, _, placed, _, counted⟩ := inside 4 (by decide)
  obtain rfl : (2, 4) = entry := Option.some.inj shows.present
  obtain ⟨position, _, entry, _, shown, _⟩ := followed [1] 0 _ rfl
  exact ⟨spread_reached, ⟨trail, place, shows, placed, counted⟩, (past 8 (by decide)).1,
    ⟨position, _, entry, rfl, shown⟩, accepted⟩

end Tree

end CountedBTree
