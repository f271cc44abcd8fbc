import CountedBTree.Proofs.OffsetBijection

/-!
# The order of places

Places are compared level by level by the ranks they pass, without looking at the tree. That is
the order of the sequences of ranks, and inside one tree the order of the offsets they lead to.
At a branch two places fall on two blocks of offsets, and the lower block has the smaller rank:
a separator lies behind the child before it, whose rank is one less, and in front of the child
after it, whose rank is one more. Two places in one child are compared further down, and two
places on one separator are equal.

On all places, of whatever trees, the ranks give a total order, in which only places with the
same numbers and the same slot are equal. Because only the last rank of a place is odd, no
place runs on where another one ends: the shorter of the two decides.
-/

namespace CountedBTree

variable {κ ν : Type}

namespace Place

variable {left right : Place κ ν}

/-- Places are equal when they have the same numbers and the same slot. -/
theorem beq_iff : (left == right) = true ↔
    left.numbers = right.numbers ∧ left.slot = right.slot := by
  change (left.slot == right.slot && left.numbers == right.numbers) = true ↔ _
  simp only [Bool.and_eq_true, beq_iff_eq]
  exact and_comm

/-- The ranks a place passes, down to that of its entry. -/
def ranks (place : Place κ ν) : List Nat :=
  place.numbers.map (2 * ·) ++ [2 * place.slot + 1]

/-- The rank on a level is the one passed there. -/
theorem getElem?_ranks {place : Place κ ν} {level : Nat} (inside : level ≤ place.depth) :
    place.ranks[level]? = some (place.rankAt level) := by
  simp only [ranks, rankAt]
  cases reached : place.numbers[level]? with
  | some number =>
    have bound := (List.getElem?_eq_some_iff.mp reached).1
    rw [List.getElem?_append_left (by simpa using bound), List.getElem?_map, reached]
    rfl
  | none =>
    have bound : level = place.numbers.length :=
      Nat.le_antisymm inside (List.getElem?_eq_none_iff.mp reached)
    rw [List.getElem?_append_right (by simp [bound])]
    simp [bound]

/-- The ranks that a place passes give its numbers and its slot back. -/
theorem ranks_inj : left.ranks = right.ranks ↔
    left.numbers = right.numbers ∧ left.slot = right.slot := by
  constructor
  · intro same
    obtain ⟨children, last⟩ := List.append_inj' same rfl
    have double : Function.Injective (fun number : Nat => 2 * number) := by
      intro first second equal
      have equal : 2 * first = 2 * second := equal
      omega
    have slots : 2 * left.slot + 1 = 2 * right.slot + 1 := List.singleton_inj.mp last
    exact ⟨List.map_injective_iff.mpr double children, by omega⟩
  · rintro ⟨numbers, slot⟩
    rw [ranks, ranks, numbers, slot]

/-- A place that goes down through a child passes the even rank of the child first. -/
theorem ranks_cons (number : Nat) (numbers : List Nat) (slot : Nat) (node : Node κ ν) :
    (⟨number :: numbers, slot, node⟩ : Place κ ν).ranks =
      2 * number :: (⟨numbers, slot, node⟩ : Place κ ν).ranks := rfl

/-- The first ranks decide the order if they differ. -/
theorem compare_of_ne {first second : Nat} (apart : first ≠ second) (rest others : List Nat) :
    compare (first :: rest) (second :: others) = compare first second := by
  rw [List.compare_cons_cons]
  rcases Nat.lt_or_gt_of_ne apart with less | greater
  · rw [Nat.compare_eq_lt.mpr less]
    rfl
  · rw [Nat.compare_eq_gt.mpr greater]
    rfl

/-- Equal first ranks leave the order to the others. -/
theorem compare_same (first : Nat) (rest others : List Nat) :
    compare (first :: rest) (first :: others) = compare rest others := by
  rw [List.compare_cons_cons, Std.ReflOrd.compare_self]
  rfl

/-- A smaller first rank is in front. -/
theorem compare_of_less {first second : Nat} (less : first < second) (rest others : List Nat) :
    compare (first :: rest) (second :: others) = .lt :=
  (compare_of_ne (Nat.ne_of_lt less) rest others).trans (Nat.compare_eq_lt.mpr less)

/-- The ranks down to the level where the shorter place ends decide the order. Its last rank
is odd and the one beside it is even, unless the other place ends there, too. -/
theorem compare_ranks_take (left right : Place κ ν) :
    compare (left.ranks.take (min left.depth right.depth + 1))
      (right.ranks.take (min left.depth right.depth + 1)) = compare left.ranks right.ranks := by
  symm
  obtain ⟨numbers, slot, node⟩ := left
  obtain ⟨otherNumbers, otherSlot, other⟩ := right
  simp only [depth]
  induction numbers generalizing otherNumbers with
  | nil =>
    cases otherNumbers with
    | nil => rfl
    | cons number rest =>
      have apart : 2 * slot + 1 ≠ 2 * number := by omega
      exact (compare_of_ne apart _ _).trans (compare_of_ne apart _ _).symm
  | cons number rest inductionHypothesis =>
    cases otherNumbers with
    | nil =>
      have apart : 2 * number ≠ 2 * otherSlot + 1 := by omega
      exact (compare_of_ne apart _ _).trans (compare_of_ne apart _ _).symm
    | cons otherNumber otherRest =>
      rw [ranks_cons, ranks_cons, List.length_cons, List.length_cons, Nat.add_min_add_right,
        List.take_succ_cons, List.take_succ_cons, List.compare_cons_cons,
        List.compare_cons_cons, inductionHypothesis otherRest]

/-- The ranks from a level on begin with the one passed there. -/
theorem take_drop_ranks {place : Place κ ν} {level : Nat} (inside : level ≤ place.depth)
    (more : Nat) : (place.ranks.drop level).take (more + 1) =
      place.rankAt level :: (place.ranks.drop (level + 1)).take more := by
  obtain ⟨bound, same⟩ := List.getElem?_eq_some_iff.mp (getElem?_ranks inside)
  rw [List.drop_eq_getElem_cons bound, List.take_succ_cons, same]

/-- Comparing level by level compares the ranks passed on those levels. -/
theorem compareFrom_eq {level more : Nat} (inside : level + more ≤ left.depth + 1)
    (insideToo : level + more ≤ right.depth + 1) : left.compareFrom right level more =
      compare ((left.ranks.drop level).take more) ((right.ranks.drop level).take more) := by
  induction more generalizing level with
  | zero => rfl
  | succ more inductionHypothesis =>
    rw [take_drop_ranks (by omega), take_drop_ranks (by omega), List.compare_cons_cons,
      ← inductionHypothesis (by omega) (by omega), compareFrom]
    cases compare (left.rankAt level) (right.rankAt level) <;> rfl

/-- Places are ordered by the ranks they pass, the first difference deciding. -/
theorem compare_eq_ranks (left right : Place κ ν) :
    compare left right = compare left.ranks right.ranks := by
  rw [← compare_ranks_take]
  exact compareFrom_eq (by omega) (by omega)

/-- Only equal places are ordered as equal. -/
theorem compare_eq_iff : compare left right = .eq ↔ (left == right) = true := by
  rw [beq_iff, ← ranks_inj, compare_eq_ranks]
  exact Std.LawfulEqOrd.compare_eq_iff_eq

/-- The order of places is total and transitive. -/
instance : Std.TransOrd (Place κ ν) := by
  have byRanks : (compare : Place κ ν → Place κ ν → Ordering) = compareOn ranks :=
    funext₂ compare_eq_ranks
  rw [Std.TransOrd, byRanks]
  infer_instance

/-- Any two places are ordered, one way or both, and both ways only if they are equal. The
order goes on over a third place. -/
theorem compare_total (left right third : Place κ ν) :
    compare right left = (compare left right).swap ∧
      ((compare left right).isLE = true ∨ (compare right left).isLE = true) ∧
      ((compare left right).isLE = true → (compare right left).isLE = true →
        (left == right) = true) ∧
      ((compare left right).isLE = true → (compare right third).isLE = true →
        (compare left third).isLE = true) ∧
      (compare left right = .eq ↔ (left == right) = true) := by
  have swapped : compare right left = (compare left right).swap := Std.OrientedOrd.eq_swap
  refine ⟨swapped, ?_, ?_, Std.TransOrd.isLE_trans, compare_eq_iff⟩
  · rw [swapped]
    cases compare left right <;> decide
  · rw [swapped, ← compare_eq_iff]
    cases compare left right <;> decide

end Place

/-! ## Places into one tree -/

section Blocks

variable {entries : List (κ × ν)} {children : List (Node κ ν)} {number other : Nat}
variable {child otherChild : Node κ ν}

/-- A smaller offset does not fall behind the block of a larger one. -/
theorem Node.number_le (arity : children.length = entries.length + 1)
    (found : children[number]? = some child) (foundOther : children[other]? = some otherChild)
    {offset otherOffset : Nat} (otherWithin : otherOffset ≤ otherChild.toList.length)
    (less : (inFront entries children number).length + offset <
      (inFront entries children other).length + otherOffset) : number ≤ other := by
  by_contra beyond
  have bound := (List.getElem?_eq_some_iff.mp found).1
  have later := length_inFront_lt arity foundOther (by omega : other < number) (by omega)
  omega

end Blocks

section Trails

variable {capacities : Capacities} {height : Nat} {root : Node κ ν}
variable {trail other : Trail κ ν} {left right : Place κ ν} {offset otherOffset : Nat}

/-- The place of a trail of one frame passes the rank of its entry only. -/
theorem Place.ranks_single {frame : Frame κ ν} (taken : Place.ofTrail [frame] = some left) :
    left.ranks = [2 * frame.number + 1] := by
  obtain rfl := Option.some.inj taken
  rfl

/-- The place of a longer trail passes the child of its first frame. -/
theorem Place.ranks_below {frame : Frame κ ν} {rest : Trail κ ν} (more : rest ≠ [])
    (taken : Place.ofTrail (frame :: rest) = some left) :
    ∃ below, Place.ofTrail rest = some below ∧
      left.ranks = 2 * frame.number :: below.ranks := by
  cases rest with
  | nil => exact absurd rfl more
  | cons next rest =>
    obtain ⟨below, belowTaken, rfl⟩ := Option.map_eq_some_iff.mp taken
    exact ⟨below, belowTaken, rfl⟩

/-- Of two trails, the one to the smaller offset passes the smaller ranks. -/
theorem Trail.Leads.ranks_lt (leads : Trail.Leads root trail offset)
    (otherLeads : Trail.Leads root other otherOffset)
    (shaped : Node.Shaped capacities height root) (less : offset < otherOffset)
    (taken : Place.ofTrail trail = some left) (otherTaken : Place.ofTrail other = some right) :
    compare left.ranks right.ranks = .lt := by
  induction leads generalizing height other otherOffset left right with
  | leaf inside =>
    cases otherLeads with
    | leaf otherInside =>
      rw [Place.ranks_single taken, Place.ranks_single otherTaken]
      exact Place.compare_of_less (by simp only; omega) _ _
  | @separator capacity total slot entries children child found inside =>
    rw [Place.ranks_single taken]
    cases shaped with
    | branch fits separated arity counted shaped filled =>
      cases otherLeads with
      | @separator _ _ otherSlot _ _ otherChild foundOther otherInside =>
        rw [Place.ranks_single otherTaken]
        have ordered := Node.number_le arity found foundOther (Nat.le_refl _) less
        have apart : slot ≠ otherSlot := by
          rintro rfl
          obtain rfl := Option.some.inj (found.symm.trans foundOther)
          exact Nat.lt_irrefl _ less
        exact Place.compare_of_less (by simp only; omega) _ _
      | @child _ _ number otherOffset _ _ otherChild _ foundOther lower =>
        obtain ⟨below, _, otherRanks⟩ := Place.ranks_below lower.ne_nil otherTaken
        rw [otherRanks]
        have within := lower.offset_lt (shaped _ (List.mem_of_getElem? foundOther))
        have ordered := Node.number_le arity found foundOther (Nat.le_of_lt within) less
        have apart : slot ≠ number := by
          rintro rfl
          obtain rfl := Option.some.inj (found.symm.trans foundOther)
          omega
        exact Place.compare_of_less (by simp only; omega) _ _
  | @child capacity total number offset entries children child rest found lower
      inductionHypothesis =>
    obtain ⟨below, belowTaken, ranks⟩ := Place.ranks_below lower.ne_nil taken
    rw [ranks]
    cases shaped with
    | branch fits separated arity counted shaped filled =>
      cases otherLeads with
      | separator foundOther otherInside =>
        rw [Place.ranks_single otherTaken]
        have ordered := Node.number_le arity found foundOther (Nat.le_refl _) less
        exact Place.compare_of_less (by simp only; omega) _ _
      | @child _ _ otherNumber otherOffset _ _ otherChild _ foundOther otherLower =>
        obtain ⟨otherBelow, otherBelowTaken, otherRanks⟩ :=
          Place.ranks_below otherLower.ne_nil otherTaken
        rw [otherRanks]
        have within := otherLower.offset_lt (shaped _ (List.mem_of_getElem? foundOther))
        have ordered := Node.number_le arity found foundOther (Nat.le_of_lt within) less
        rcases Nat.lt_or_eq_of_le ordered with before | rfl
        · exact Place.compare_of_less (by simp only; omega) _ _
        · obtain rfl := Option.some.inj (found.symm.trans foundOther)
          rw [Place.compare_same]
          exact inductionHypothesis otherLower (shaped _ (List.mem_of_getElem? found))
            (Nat.lt_of_add_lt_add_left less) belowTaken otherBelowTaken

/-- Places into one tree are ordered like the offsets they lead to. -/
theorem Place.Leads.compare_eq (leads : left.Leads root offset)
    (otherLeads : right.Leads root otherOffset)
    (shaped : Node.Shaped capacities height root) :
    compare left right = compare offset otherOffset := by
  obtain ⟨trail, taken, leads⟩ := leads
  obtain ⟨other, otherTaken, otherLeads⟩ := otherLeads
  rcases Nat.lt_trichotomy offset otherOffset with less | rfl | greater
  · rw [Nat.compare_eq_lt.mpr less]
    exact (Place.compare_eq_ranks left right).trans
      (leads.ranks_lt otherLeads shaped less taken otherTaken)
  · obtain rfl := leads.unique otherLeads shaped
    obtain rfl := Option.some.inj (taken.symm.trans otherTaken)
    rw [Std.ReflOrd.compare_self, Std.ReflOrd.compare_self]
  · rw [Nat.compare_eq_gt.mpr greater, @Std.OrientedOrd.eq_swap _ _ _ left]
    have below : compare right left = .lt := (Place.compare_eq_ranks right left).trans
      (otherLeads.ranks_lt leads shaped greater otherTaken taken)
    rw [below]
    rfl

end Trails

namespace Tree

variable [Ord κ] [Footprint κ] [Footprint ν] {tree : Tree κ ν}

/-- A place with an offset has the numbers and the slot of the one that leads there. -/
theorem leads_of_offsetOf (sound : tree.Sound) {place : Place κ ν} {offset : Nat}
    (counted : tree.offsetOf place = .ok offset) :
    ∃ there : Place κ ν, there.Leads tree.root offset ∧ there.numbers = place.numbers ∧
      there.slot = place.slot := by
  obtain ⟨height, shaped⟩ := sound.shaped
  obtain ⟨trail, followed, counted⟩ := Checked.bind_eq_ok.mp counted
  obtain ⟨reached, there, leads, taken, numbers, slot⟩ :=
    Node.place_leads_of_follow shaped followed
  rw [leads.position_eq shaped sound.small, Checked.ok_bind] at counted
  obtain rfl := Except.ok.inj counted
  exact ⟨there, ⟨trail, taken, leads⟩, numbers, slot⟩

/-- The order of places that a tree has offsets for is that of the offsets. -/
theorem compare_offsets (sound : tree.Sound) {left right : Place κ ν} {offset otherOffset : Nat}
    (counted : tree.offsetOf left = .ok offset)
    (otherCounted : tree.offsetOf right = .ok otherOffset) :
    compare left right = compare offset otherOffset := by
  obtain ⟨height, shaped⟩ := sound.shaped
  obtain ⟨here, leads, numbers, slot⟩ := leads_of_offsetOf sound counted
  obtain ⟨there, otherLeads, otherNumbers, otherSlot⟩ := leads_of_offsetOf sound otherCounted
  rw [← leads.compare_eq otherLeads shaped, Place.compare_eq_ranks, Place.compare_eq_ranks,
    Place.ranks_inj.mpr ⟨numbers, slot⟩, Place.ranks_inj.mpr ⟨otherNumbers, otherSlot⟩]

/-- Every offset of a tree has a place, and places with offsets are ordered like them: those
that follow the same children to the same slot are the ones with the same offset. -/
structure Ordered (tree : Tree κ ν) : Prop where
  offsets : ∀ offset < tree.toList.length, ∃ place, tree.placeAt offset = .ok place ∧
    tree.offsetOf place = .ok offset
  compare_eq : ∀ {left right offset otherOffset}, tree.offsetOf left = .ok offset →
    tree.offsetOf right = .ok otherOffset → compare left right = compare offset otherOffset
  beq_iff : ∀ {left right offset otherOffset}, tree.offsetOf left = .ok offset →
    tree.offsetOf right = .ok otherOffset → ((left == right) = true ↔ offset = otherOffset)

/-- The places of a sound tree are ordered like the offsets. -/
theorem Sound.ordered (sound : tree.Sound) : tree.Ordered where
  offsets := by
    intro offset inside
    rw [← size_eq sound] at inside
    obtain ⟨place, found, leads⟩ := placeAt_leads sound inside
    exact ⟨place, found, offsetOf_eq sound leads⟩
  compare_eq := compare_offsets sound
  beq_iff := by
    intro left right offset otherOffset counted otherCounted
    rw [← Place.compare_eq_iff, compare_offsets sound counted otherCounted]
    exact Nat.compare_eq_eq

end Tree

end CountedBTree
