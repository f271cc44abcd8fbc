import CountedBTree.Proofs.FirstOccurrence

/-!
# Writes to one value

Three writes replace the value of an entry that is there: an insertion that prefers the first
entry with an equal key, a change of that entry in place, and a write at a place. Each finds the
entry by one descent and goes down to it again by the child numbers recorded. None of them
touches anything else.

What is left as it was is the outline of the tree. A place is found by counts alone, which are
part of the outline, so every entry keeps its place as well: seeking an offset in the outline of
a tree gives the outline of what seeking gives in the tree.
-/

namespace CountedBTree

variable {κ ν : Type}

/-! ## Places of an outline -/

/-- The frame with the values of its node forgotten. -/
def Frame.outline (frame : Frame κ ν) : Frame κ Unit := ⟨frame.node.outline, frame.number⟩

/-- The place with the values of its node forgotten. -/
def Place.outline (place : Place κ ν) : Place κ Unit :=
  ⟨place.numbers, place.slot, place.node.outline⟩

namespace Node

/-- Among the children of a node as in each of them, seeking in the outline gives the outline. -/
theorem seekAmong_outline (parent : Node κ ν) {children : List (Node κ ν)}
    (known : ∀ child ∈ children, ∀ offset,
      child.outline.seek offset = (child.seek offset).map (List.map Frame.outline))
    (number offset : Nat) :
    seekAmong parent.outline number (outlines children) offset =
      (seekAmong parent number children offset).map (List.map Frame.outline) := by
  induction children generalizing number offset with
  | nil => rfl
  | cons child rest inductionHypothesis =>
    simp only [outlines, seekAmong, total_outline]
    by_cases inside : offset < child.total
    · rw [if_pos inside, if_pos inside, known child List.mem_cons_self]
      cases child.seek offset <;> rfl
    · rw [if_neg inside, if_neg inside]
      by_cases behind : offset = child.total
      · rw [if_pos behind, if_pos behind]
        rfl
      · rw [if_neg behind, if_neg behind]
        exact inductionHypothesis (fun other member => known other (List.mem_cons_of_mem _ member))
          (number + 1) (offset - (child.total + 1))

/-- Seeking an offset reads nothing but the outline. -/
theorem seek_outline (node : Node κ ν) : ∀ offset,
    node.outline.seek offset = (node.seek offset).map (List.map Frame.outline) := by
  induction node using Node.induct with
  | leaf capacity total entries =>
    intro offset
    rfl
  | branch capacity total entries children inductionHypothesis =>
    intro offset
    exact seekAmong_outline (.branch capacity total entries children) inductionHypothesis 0 offset

theorem seekOffset_outline (node : Node κ ν) (offset : Nat) :
    node.outline.seekOffset offset = (node.seekOffset offset).map (List.map Frame.outline) := by
  simp only [seekOffset, total_outline]
  by_cases inside : offset < node.total
  · rw [if_pos inside, if_pos inside, seek_outline]
  · rw [if_neg inside, if_neg inside]
    rfl

end Node

/-- The outline of a trail leads to the outline of its place. -/
theorem Place.ofTrail_outline (trail : Trail κ ν) :
    Place.ofTrail (trail.map Frame.outline) = (Place.ofTrail trail).map Place.outline := by
  induction trail with
  | nil => rfl
  | cons frame rest inductionHypothesis =>
    cases rest with
    | nil => rfl
    | cons next rest =>
      have below : Place.ofTrail (next.outline :: rest.map Frame.outline) =
          (Place.ofTrail (next :: rest)).map Place.outline := inductionHypothesis
      simp only [List.map_cons, Place.ofTrail, below, Option.map_map]
      rfl

namespace Tree

variable {tree after : Tree κ ν}

/-- The place at an offset of a tree has for its outline the place there in the outline of the
tree. -/
theorem placeAt_outline {outlined : Tree κ Unit} (same : outlined.root = tree.root.outline)
    (offset : Nat) : outlined.placeAt offset = (tree.placeAt offset).map Place.outline := by
  simp only [placeAt, size, same, Node.total_outline, Node.seekOffset_outline]
  by_cases inside : offset < tree.root.total
  · cases sought : tree.root.seekOffset offset with
    | error cause => simp [inside, Except.map]
    | ok trail =>
      cases taken : Place.ofTrail trail with
      | none => simp [inside, Except.map, Place.ofTrail_outline, taken]
      | some place => simp [inside, Except.map, Place.ofTrail_outline, taken]
  · simp [inside, Except.map]

/-- Trees with one outline have the same places. -/
theorem placeAt_of_outline (same : after.root.outline = tree.root.outline) (offset : Nat) :
    (after.placeAt offset).map Place.outline = (tree.placeAt offset).map Place.outline := by
  let outlined : Tree κ Unit := ⟨tree.root.outline, tree.capacities, tree.generation⟩
  have fromTree := placeAt_outline (show outlined.root = tree.root.outline from rfl) offset
  have fromAfter := placeAt_outline (show outlined.root = after.root.outline from same.symm) offset
  exact fromAfter.symm.trans fromTree

/-! ## Writes -/

/-- The tree is one write later, with another value at the offset. Every other entry, every
key, every node with its capacity and count, and the place of every entry are as they were. -/
structure Overwrites (tree : Tree κ ν) (offset : Nat) (entry : κ × ν) (value : ν)
    (after : Tree κ ν) : Prop where
  present : tree.toList[offset]? = some entry
  written : after.toList[offset]? = some (entry.1, value)
  others : ∀ other, other ≠ offset → after.toList[other]? = tree.toList[other]?
  outline_eq : after.root.outline = tree.root.outline
  capacities_eq : after.capacities = tree.capacities
  size_eq : after.size = tree.size
  height_eq : after.height = tree.height
  placeAt_eq : ∀ other,
    (after.placeAt other).map Place.outline = (tree.placeAt other).map Place.outline
  generation_eq : after.generation = tree.generation + 1

variable [Ord κ] [Footprint κ] [Footprint ν]

/-- A tree that differs in the value at one offset only was overwritten there. -/
theorem Revalues.overwrites {offset : Nat} {entry : κ × ν} {value : ν}
    (revalues : tree.Revalues (tree.toList.set offset (entry.1, value)) after)
    (present : tree.toList[offset]? = some entry) : tree.Overwrites offset entry value after where
  present := present
  written := by
    obtain ⟨inside, _⟩ := List.getElem?_eq_some_iff.mp present
    rw [revalues.listed, List.getElem?_set_self inside]
  others := by
    intro other apart
    rw [revalues.listed, List.getElem?_set_ne apart.symm]
  outline_eq := revalues.outline_eq
  capacities_eq := revalues.capacities_eq
  size_eq := Node.total_of_outline revalues.outline_eq
  height_eq := revalues.height_eq
  placeAt_eq := placeAt_of_outline revalues.outline_eq
  generation_eq := revalues.generation_eq

/-- The writes that look for a key touch the entry at the offset, the one that the first value
is read from, and answer its value, as long as a write can be counted. -/
structure WritesAt (tree : Tree κ ν) (key : κ) (offset : Nat) (entry : κ × ν) : Prop where
  read : tree.firstValue key = .ok (some entry.2)
  silent : ∀ value, (tree.updateFirstOrInsert key value).events = []
  updated : ∀ value,
    tree.checkGeneration.Admits (tree.updateFirstOrInsert key value).outcome (fun answer =>
      answer.1 = some entry.2 ∧ tree.Overwrites offset entry value answer.2)
  changed : ∀ change,
    tree.checkGeneration.Admits (tree.changeFirst key change) (fun answer =>
      ∃ after, answer = some (entry.2, after) ∧
        tree.Overwrites offset entry (change entry.2) after)

/-- The writes that look for a key find none to touch. One inserts like a plain insertion, with
the same events and the same gate, and the other leaves the tree as it is. -/
structure WritesBeside (tree : Tree κ ν) (key : κ) : Prop where
  read : tree.firstValue key = .ok none
  inserted : ∀ value, tree.updateFirstOrInsert key value =
    tree.insertKey key value >>= fun after => pure (none, after)
  answered : ∀ value,
    (tree.roomFor (tree.size + 1)).Admits (tree.updateFirstOrInsert key value).outcome
      (fun answer => answer.1 = none ∧ (tree.insertKey key value).outcome = .ok answer.2 ∧
        answer.2.generation = tree.generation + 1)
  unchanged : ∀ change, tree.changeFirst key change = .ok none ∧
    (TreeAction.changeFirst key change).run tree = pure tree

variable [Std.TransOrd κ] {key : κ} {entry : κ × ν}

/-- With an equal key, the first entry is written to. -/
theorem writesAt_of_find (sound : tree.Sound)
    (found : tree.toList.find? (fun entry => (compare entry.1 key).isEq) = some entry) :
    tree.WritesAt key (countBelow key tree.toList) entry where
  read := by rw [firstValue_eq sound key, found, Option.map_some]
  silent value := (updateFirstOrInsert_found sound value found).1
  updated := by
    intro value
    apply (updateFirstOrInsert_found sound value found).2.imp
    rintro answer _ ⟨previous, revalues⟩
    exact ⟨previous, revalues.overwrites (firstAt_of_find sound found).present⟩
  changed := by
    intro change
    apply (changeFirst_found sound change found).imp
    rintro answer _ ⟨after, same, revalues⟩
    exact ⟨after, same, revalues.overwrites (firstAt_of_find sound found).present⟩

/-- Without an equal key, nothing that is there is written to. -/
theorem writesBeside_of_absent (sound : tree.Sound)
    (absent : tree.toList.find? (fun entry => (compare entry.1 key).isEq) = none) :
    tree.WritesBeside key where
  read := by rw [firstValue_eq sound key, absent, Option.map_none]
  inserted value := updateFirstOrInsert_absent sound value absent
  answered := by
    intro value
    rw [updateFirstOrInsert_absent sound value absent, Traced.outcome_bind]
    apply (insertKey_admits sound key value).given.bind_ok
    rintro after ⟨ran, becomes⟩
    exact ⟨(none, after), rfl, rfl, ran, becomes.generation_eq⟩
  unchanged := by
    intro change
    have none := changeFirst_absent sound change absent
    refine ⟨none, ?_⟩
    simp only [TreeAction.run, none, Traced.lift_ok, pure_bind]
    rfl

variable {capacities : Capacities}

/-- In every tree that a run leads to, a write to a value touches that value and nothing else.
An insertion that prefers the first equal key and a change in place both write to the first
entry with an equal key; without one, the first inserts like a plain insertion and the second is
no write. A write at the place of an offset touches the entry there. The value replaced is
answered, and the generation rises by one. A write to a value is refused only if it cannot be
counted. -/
theorem write_touchesOne (reached : tree.Reached capacities) :
    (∀ key, (∃ offset entry, tree.FirstAt key offset entry ∧ tree.WritesAt key offset entry) ∨
      tree.Lacks key ∧ tree.WritesBeside key) ∧
    ∀ offset < tree.size, ∃ place entry, tree.placeAt offset = .ok place ∧
      place.entry = .ok entry ∧ ∀ value,
        tree.checkGeneration.Admits (tree.setValue place value) (fun answer =>
          answer.1 = entry.2 ∧ tree.Overwrites offset entry value answer.2) := by
  have sound := reached.isSound
  obtain ⟨height, shaped⟩ := sound.shaped
  constructor
  · intro key
    cases found : tree.toList.find? (fun entry => (compare entry.1 key).isEq) with
    | some entry =>
      left
      exact ⟨_, entry, firstAt_of_find sound found, writesAt_of_find sound found⟩
    | none =>
      right
      exact ⟨lacks_of_find found, writesBeside_of_absent sound found⟩
  · intro offset inside
    obtain ⟨place, placed, leads⟩ := placeAt_leads sound inside
    obtain ⟨entry, present, shown⟩ := leads.entry_eq shaped
    refine ⟨place, entry, placed, shown, fun value => ?_⟩
    obtain ⟨key, old, there, admits⟩ := setValue_leads sound leads value
    obtain rfl : entry = (key, old) := Option.some.inj (present.symm.trans there)
    apply admits.imp
    rintro answer _ ⟨previous, revalues⟩
    exact ⟨previous, revalues.overwrites present⟩

/-- The first of several equal keys stands behind the smaller ones. -/
theorem spread_firstAt : spread.FirstAt 2 2 (2, 0) where
  present := rfl
  equal := rfl
  first := by decide

/-- The first entry of a key lies in a branch of the middle level, in front of equal keys in
other nodes; another key is missing; and the entry at offset four is a separator in the root. -/
theorem write_touchesOne_spread :
    spread.Reached ⟨2, 2⟩ ∧
      (∃ after, spread.updateFirstOrInsert 2 9 = ⟨[], .ok (some 0, after)⟩ ∧
        spread.Overwrites 2 (2, 0) 9 after) ∧
      (∃ after, spread.changeFirst 2 (· + 9) = .ok (some (0, after)) ∧
        spread.Overwrites 2 (2, 0) 9 after) ∧
      spread.WritesBeside 5 ∧
      ∃ place after, spread.placeAt 4 = .ok place ∧ spread.setValue place 9 = .ok (4, after) ∧
        spread.Overwrites 4 (2, 4) 9 after := by
  obtain ⟨byKey, byPlace⟩ := write_touchesOne spread_reached
  obtain ⟨place, entry, placed, shown, writes⟩ := byPlace 4 (by decide)
  obtain ⟨⟨_, changed⟩, ran, rfl, overwrites⟩ := (writes 9).answers rfl
  obtain rfl : (2, 4) = entry := Option.some.inj overwrites.present
  refine ⟨spread_reached, ?_, ?_, ?_, place, changed, placed, ran, overwrites⟩
  · rcases byKey 2 with ⟨offset, first, firstAt, writesAt⟩ | ⟨lacks, _⟩
    · obtain ⟨rfl, rfl⟩ := firstAt.unique spread_firstAt
      obtain ⟨⟨_, after⟩, ran, rfl, overwrites⟩ := (writesAt.updated 9).answers rfl
      exact ⟨after, by rw [← ran, ← writesAt.silent 9], overwrites⟩
    · exact absurd (lacks (2, 0) (by decide)) (by decide)
  · rcases byKey 2 with ⟨offset, first, firstAt, writesAt⟩ | ⟨lacks, _⟩
    · obtain ⟨rfl, rfl⟩ := firstAt.unique spread_firstAt
      obtain ⟨_, ran, after, rfl, overwrites⟩ := (writesAt.changed (· + 9)).answers rfl
      exact ⟨after, ran, overwrites⟩
    · exact absurd (lacks (2, 0) (by decide)) (by decide)
  · rcases byKey 5 with ⟨offset, first, firstAt, writesAt⟩ | ⟨_, writesBeside⟩
    · have missed : spread.firstValue 5 = .ok none := rfl
      rw [writesAt.read] at missed
      exact absurd (Except.ok.inj missed) (Option.some_ne_none _)
    · exact writesBeside

end Tree

end CountedBTree
