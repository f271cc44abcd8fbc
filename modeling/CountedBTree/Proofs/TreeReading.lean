import CountedBTree.Proofs.KeyBounds
import CountedBTree.Proofs.KeyLookup
import CountedBTree.Proofs.Sweeps

/-!
# Reading a tree

What a sound tree answers is what the list of its entries answers: its size and its ends,
the entry at every offset, and scripts of requests to a sweep over all entries or over those
between two key bounds. No reading of a sound tree is refused.
-/

namespace CountedBTree

variable {κ ν : Type} [Ord κ]

namespace Tree

variable [Footprint κ] [Footprint ν] {tree : Tree κ ν}

/-- A sound tree is empty if it lists nothing. -/
theorem isEmpty_eq (sound : tree.Sound) : tree.isEmpty = tree.toList.isEmpty := by
  rw [Tree.isEmpty, size_eq sound]
  cases tree.toList <;> rfl

/-- The first entry is the head of the list. -/
theorem first_eq (sound : tree.Sound) : tree.first? = .ok tree.toList.head? := by
  obtain ⟨height, shaped⟩ := sound.shaped
  by_cases occupied : tree.root.toList = []
  · have ends := shaped.ends_empty occupied
    have none : tree.toList.head? = none := by rw [Tree.toList, occupied]; rfl
    simp [Tree.first?, ends.1, none, Trail.entry?, Trail.last?]
  · obtain ⟨trail, descended, leads⟩ := shaped.leftmost_leads occupied
    obtain ⟨entry, present, found⟩ := leads.entry_eq shaped
    have head : tree.toList.head? = some entry := by
      rw [List.head?_eq_getElem?]
      exact present
    simp [Tree.first?, descended, found, head]

/-- The last entry is the last of the list. -/
theorem last_eq (sound : tree.Sound) : tree.last? = .ok tree.toList.getLast? := by
  obtain ⟨height, shaped⟩ := sound.shaped
  by_cases occupied : tree.root.toList = []
  · have ends := shaped.ends_empty occupied
    have none : tree.toList.getLast? = none := by rw [Tree.toList, occupied]; rfl
    simp [Tree.last?, ends.2, none, Trail.entry?, Trail.last?]
  · obtain ⟨trail, descended, leads⟩ := shaped.rightmost_leads occupied
    obtain ⟨entry, present, found⟩ := leads.entry_eq shaped
    have last : tree.toList.getLast? = some entry := by
      rw [List.getLast?_eq_getElem?]
      exact present
    simp [Tree.last?, descended, found, last]

/-- The entry at an offset is the one at that index of the list, if there is one. -/
theorem entryAt_eq (sound : tree.Sound) (offset : Nat) :
    tree.entryAt? offset = .ok tree.toList[offset]? := by
  obtain ⟨height, shaped⟩ := sound.shaped
  rcases Nat.lt_or_ge offset tree.root.toList.length with inside | past
  · obtain ⟨trail, sought, leads⟩ := Node.seekOffset_leads shaped inside
    obtain ⟨entry, present, found⟩ := leads.entry_eq shaped
    have here : tree.toList[offset]? = some entry := present
    simp [Tree.entryAt?, sought, found, here]
  · have missing : tree.toList[offset]? = none := List.getElem?_eq_none past
    simp [Tree.entryAt?, Node.seekOffset_past shaped past, missing, Trail.entry?, Trail.last?]

/-- The sweep over a tree stands for all its entries. -/
theorem sweep_covers (sound : tree.Sound) :
    ∃ sweep, tree.sweep = .ok sweep ∧ sweep.Covers tree.root tree.toList := by
  obtain ⟨height, shaped⟩ := sound.shaped
  obtain ⟨sweep, made, covers⟩ := Sweep.ofOffsets_covers shaped 0 tree.size
  rw [size_eq sound, Tree.toList, List.take_length, List.drop_zero] at covers
  exact ⟨sweep, made, covers⟩

/-- Every script is answered over all entries as over their list. -/
theorem sweep_pullAll (sound : tree.Sound) (script : List Pull) :
    ∃ sweep, tree.sweep = .ok sweep ∧ sweep.toList = .ok tree.toList ∧
      Sweep.source.pullAll script sweep = TwoEnded.ofList.pullAll script tree.toList := by
  obtain ⟨height, shaped⟩ := sound.shaped
  obtain ⟨sweep, made, covers⟩ := sweep_covers sound
  obtain ⟨after, gathered, _⟩ := TwoEnded.rest_eq (Sweep.source_stands shaped) covers
  refine ⟨sweep, made, by simp [Sweep.toList, gathered], ?_⟩
  exact TwoEnded.pullAll_eq (Sweep.source_stands shaped) script covers

/-- Images of all entries, such as their keys alone, are answered as over the list of images. -/
theorem sweep_pullAll_map {α : Type} (sound : tree.Sound) (image : κ × ν → α)
    (script : List Pull) :
    ∃ sweep, tree.sweep = .ok sweep ∧ (Sweep.source.map image).pullAll script sweep =
      TwoEnded.ofList.pullAll script (tree.toList.map image) := by
  obtain ⟨height, shaped⟩ := sound.shaped
  obtain ⟨sweep, made, covers⟩ := sweep_covers sound
  have stands := (Sweep.source_stands shaped).map image
  exact ⟨sweep, made, TwoEnded.pullAll_eq stands script ⟨tree.toList, covers, rfl⟩⟩

/-- The offsets between two bounds are those in the list of the keys. -/
theorem offsetsBetween_eq [Std.TransOrd κ] (sound : tree.Sound) (low high : Bound κ) :
    tree.offsetsBetween low high =
      .ok (OffsetRange.inSorted (tree.toList.map Prod.fst) low high) := by
  rw [offsetsBetween, size_eq sound, OffsetRange.inSorted_eq]
  exact OffsetRange.between_eq low high (countLess_eq sound) (countNotGreater_eq sound)

/-- The sweep between two bounds stands for the entries whose keys satisfy both. -/
theorem sweepBetween_covers [Std.TransOrd κ] (sound : tree.Sound) (low high : Bound κ) :
    ∃ sweep, tree.sweepBetween low high = .ok sweep ∧
      sweep.Covers tree.root (entriesBetween low high tree.toList) := by
  obtain ⟨height, shaped⟩ := sound.shaped
  have offsets := offsetsBetween_eq sound low high
  rw [sound.ascending.entriesBetween_inSorted]
  generalize OffsetRange.inSorted (tree.toList.map Prod.fst) low high = range at offsets ⊢
  obtain ⟨sweep, made, covers⟩ := Sweep.ofOffsets_covers shaped range.start range.stop
  exact ⟨sweep, by simp [sweepBetween, offsets, made], covers⟩

/-- Every script is answered between two bounds as over the list of the entries there. -/
theorem sweepBetween_pullAll [Std.TransOrd κ] (sound : tree.Sound) (low high : Bound κ)
    (script : List Pull) :
    ∃ sweep, tree.sweepBetween low high = .ok sweep ∧
      Sweep.source.pullAll script sweep =
        TwoEnded.ofList.pullAll script (entriesBetween low high tree.toList) := by
  obtain ⟨height, shaped⟩ := sound.shaped
  obtain ⟨sweep, made, covers⟩ := sweepBetween_covers sound low high
  exact ⟨sweep, made, TwoEnded.pullAll_eq (Sweep.source_stands shaped) script covers⟩

end Tree

end CountedBTree
