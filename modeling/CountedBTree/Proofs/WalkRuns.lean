import CountedBTree.Proofs.OffsetBijection

/-!
# Strings of steps

A string of steps forwards and backwards leads from an offset as many offsets away as it has
steps forwards more than steps backwards, wherever it turns on the way, as long as it never
passes an end of the tree. From the step that passes an end on, there is nothing to walk
from, and the steps after it change nothing, in whichever direction they point.

The trails on the way are those that seeking their offsets gives. A step therefore leaves no
trace of the way it came, at any height at which it climbed or descended.
-/

namespace CountedBTree

variable {κ ν : Type}

namespace Trail

/-- One step along a tree. -/
inductive Move where
  /-- To the next entry. -/
  | next
  /-- To the previous entry. -/
  | prev
  deriving DecidableEq, Repr

/-- How many offsets a string of steps leads away: its steps forwards less its steps
backwards. -/
def Move.distance (moves : List Move) : Int := moves.count .next - moves.count .prev

/-- Take one step. -/
def move (trail : Trail κ ν) : Move → Checked (Trail κ ν)
  | .next => trail.next
  | .prev => trail.prev

/-- Take one step after the other. -/
def walk (trail : Trail κ ν) : List Move → Checked (Trail κ ν)
  | [] => .ok trail
  | step :: rest => do
      let moved ← trail.move step
      walk moved rest

namespace Move

@[simp]
theorem distance_nil : distance [] = 0 := rfl

/-- The first step counts like the string of that step alone. -/
theorem distance_cons (step : Move) (rest : List Move) :
    distance (step :: rest) = distance [step] + distance rest := by
  cases step <;> simp [distance] <;> omega

/-- Every string of steps from the offset that begins this one, the empty and the whole one
included, leads to an offset below the count. -/
def Stays (count start : Nat) (moves : List Move) : Prop :=
  ∀ walked, walked <+: moves → 0 ≤ start + distance walked ∧ start + distance walked < count

instance (count start : Nat) (moves : List Move) : Decidable (Stays count start moves) :=
  decidable_of_iff (∀ walked ∈ moves.inits,
      0 ≤ start + distance walked ∧ start + distance walked < count) (by
    simp only [List.mem_inits, Stays])

/-- A string of steps that stays inside starts inside. -/
theorem Stays.start_lt {count start : Nat} {moves : List Move}
    (stays : Stays count start moves) : start < count := by
  simpa using (stays [] List.nil_prefix).2

/-- To stay inside is to start inside and to stay inside from where the first step leads. -/
theorem stays_cons {count start : Nat} {step : Move} {rest : List Move} :
    Stays count start (step :: rest) ↔ start < count ∧
      ∃ there : Nat, (there : Int) = start + distance [step] ∧ Stays count there rest := by
  constructor
  · intro stays
    have first := stays [step] (List.prefix_append [step] rest)
    obtain ⟨there, arrives⟩ := Int.eq_ofNat_of_zero_le first.1
    refine ⟨stays.start_lt, there, arrives.symm, ?_⟩
    intro walked begins
    have stay := stays (step :: walked) (List.cons_prefix_cons.mpr ⟨rfl, begins⟩)
    rw [distance_cons] at stay
    omega
  · rintro ⟨inside, there, arrives, stays⟩ walked begins
    cases walked with
    | nil => simpa using inside
    | cons first walked =>
      obtain ⟨rfl, follows⟩ := List.cons_prefix_cons.mp begins
      have stay := stays walked follows
      rw [distance_cons]
      omega

end Move

/-- No step leads back from beyond the ends. -/
theorem walk_nil (moves : List Move) : walk ([] : Trail κ ν) moves = .ok [] := by
  induction moves with
  | nil => rfl
  | cons step rest inductionHypothesis =>
    cases step <;> simpa [walk, move, next, prev] using inductionHypothesis

namespace Leads

variable {capacities : Capacities} {height start : Nat} {node : Node κ ν} {trail : Trail κ ν}

/-- A step that stays inside leads to the neighbouring offset. -/
theorem move_leads (leads : Leads node trail start)
    (shaped : Node.Shaped capacities height node) {step : Move} {there : Nat}
    (arrives : (there : Int) = start + Move.distance [step])
    (inside : there < node.toList.length) :
    ∃ moved, trail.move step = .ok moved ∧ Leads node moved there := by
  cases step with
  | next =>
    obtain rfl : there = start + 1 := by simp [Move.distance] at arrives; omega
    exact leads.next_leads shaped inside
  | prev =>
    obtain rfl : start = there + 1 := by simp [Move.distance] at arrives; omega
    exact leads.prev_leads shaped

/-- A step that passes an end leads nowhere. -/
theorem move_leaves (leads : Leads node trail start)
    (shaped : Node.Shaped capacities height node) {step : Move}
    (outside : ¬ (0 ≤ start + Move.distance [step] ∧
      start + Move.distance [step] < node.toList.length)) :
    trail.move step = .ok [] := by
  have inside := leads.offset_lt shaped
  cases step with
  | next =>
    have last : start + 1 = node.toList.length := by simp [Move.distance] at outside; omega
    exact leads.next_last shaped last
  | prev =>
    have first : start = 0 := by simp [Move.distance] at outside; omega
    exact leads.prev_first shaped first

/-- A string of steps that stays inside leads as far away as its steps add up to. -/
theorem walk_leads (leads : Leads node trail start)
    (shaped : Node.Shaped capacities height node) {moves : List Move}
    (stays : Move.Stays node.toList.length start moves) :
    ∃ moved, trail.walk moves = .ok moved ∧
      Leads node moved (start + Move.distance moves).toNat := by
  induction moves generalizing start trail with
  | nil => exact ⟨trail, rfl, by simpa using leads⟩
  | cons step rest inductionHypothesis =>
    obtain ⟨_, there, arrives, stays⟩ := Move.stays_cons.mp stays
    obtain ⟨moved, stepped, leads⟩ := leads.move_leads shaped arrives stays.start_lt
    obtain ⟨final, walked, leads⟩ := inductionHypothesis leads stays
    rw [Move.distance_cons, ← Int.add_assoc, ← arrives]
    exact ⟨final, by simp [walk, stepped, walked], leads⟩

/-- A string of steps that passes an end leads nowhere, whatever follows that step. -/
theorem walk_leaves (leads : Leads node trail start)
    (shaped : Node.Shaped capacities height node) {moves : List Move}
    (leaves : ¬ Move.Stays node.toList.length start moves) : trail.walk moves = .ok [] := by
  have within := leads.offset_lt shaped
  induction moves generalizing start trail with
  | nil =>
    refine absurd (fun walked begins => ?_) leaves
    obtain rfl := List.prefix_nil.mp begins
    simpa using within
  | cons step rest inductionHypothesis =>
    -- Either a later step passes the end, or this one does and the rest has nowhere to start.
    by_cases inside : 0 ≤ start + Move.distance [step] ∧
        start + Move.distance [step] < node.toList.length
    · obtain ⟨there, arrives⟩ := Int.eq_ofNat_of_zero_le inside.1
      obtain ⟨moved, stepped, leadsThere⟩ :=
        leads.move_leads shaped arrives.symm (by omega)
      have leavesThere : ¬ Move.Stays node.toList.length there rest := fun stays =>
        leaves (Move.stays_cons.mpr ⟨within, there, arrives.symm, stays⟩)
      simp [walk, stepped, inductionHypothesis leadsThere leavesThere
        (leadsThere.offset_lt shaped)]
    · simp [walk, leads.move_leaves shaped inside, walk_nil]

end Leads

end Trail

namespace Tree

variable [Ord κ] [Footprint κ] [Footprint ν] {tree : Tree κ ν}

/-- The place after the one at an offset is the one at the next offset, and the last place
has none. -/
theorem placeAt_advanced (sound : tree.Sound) {place : Place κ ν} {offset : Nat}
    (leads : place.Leads tree.root offset) :
    place.advanced tree.root =
      if offset + 1 < tree.toList.length then (tree.placeAt (offset + 1)).map some
      else .ok none := by
  obtain ⟨height, shaped⟩ := sound.shaped
  obtain ⟨moved, stepped, ⟨last, rfl⟩ | ⟨next, rfl, leadsNext⟩⟩ := leads.advanced_eq shaped
  · have ends : ¬ offset + 1 < tree.toList.length := Nat.not_lt.mpr (Nat.le_of_eq last.symm)
    rw [if_neg ends, stepped]
  · have inside : offset + 1 < tree.toList.length := leadsNext.offset_lt shaped
    rw [if_pos inside, stepped, placeAt_eq sound leadsNext]
    rfl

/-- The place in front of the one at an offset is the one at the offset before, and the first
place has none. -/
theorem placeAt_retreated (sound : tree.Sound) {place : Place κ ν} {offset : Nat}
    (leads : place.Leads tree.root offset) :
    place.retreated tree.root =
      if 0 < offset then (tree.placeAt (offset - 1)).map some else .ok none := by
  obtain ⟨height, shaped⟩ := sound.shaped
  obtain ⟨moved, stepped, ⟨rfl, rfl⟩ | ⟨before, previous, rfl, rfl, leadsPrevious⟩⟩ :=
    leads.retreated_eq shaped
  · exact stepped
  · rw [if_pos (Nat.succ_pos before), Nat.add_sub_cancel, stepped,
      placeAt_eq sound leadsPrevious]
    rfl

/-- The way down along first children is the trail to offset zero, the one along last
children that to the last offset; both are empty in an empty tree. -/
theorem ends_eq (sound : tree.Sound) :
    tree.root.leftmost = tree.root.seekOffset 0 ∧
      tree.root.rightmost = tree.root.seekOffset (tree.toList.length - 1) := by
  obtain ⟨height, shaped⟩ := sound.shaped
  by_cases occupied : tree.root.toList = []
  · have ends := shaped.ends_empty occupied
    have past : ∀ offset, tree.root.seekOffset offset = .ok [] := fun offset =>
      Node.seekOffset_past shaped (by simp [occupied])
    exact ⟨ends.1.trans (past _).symm, ends.2.trans (past _).symm⟩
  · obtain ⟨first, descendedFirst, leadsFirst⟩ := shaped.leftmost_leads occupied
    obtain ⟨last, descendedLast, leadsLast⟩ := shaped.rightmost_leads occupied
    exact ⟨descendedFirst.trans (leadsFirst.seekOffset_eq shaped).symm,
      descendedLast.trans (leadsLast.seekOffset_eq shaped).symm⟩

variable [Std.TransOrd κ] {capacities : Capacities}

/-- In every tree that a run leads to, walks are exact. The first and the last entry are
reached by the trails that seeking their offsets gives, the empty one if there are none. From
any offset, a string of steps of any length leads to the trail that seeking the offset it adds
up to gives, if it never passes an end, and otherwise to the empty trail. The places beside
one at an offset are those at the offsets beside it. -/
theorem walk_isExact (reached : tree.Reached capacities) :
    (tree.root.leftmost = tree.root.seekOffset 0 ∧
      tree.root.rightmost = tree.root.seekOffset (tree.toList.length - 1) ∧
      (tree.toList = [] → tree.root.leftmost = .ok [] ∧ tree.root.rightmost = .ok [])) ∧
    (∀ (start : Nat) (moves : List Trail.Move),
      (Trail.Move.Stays tree.toList.length start moves →
        ∃ trail entry, (tree.root.seekOffset start >>= (Trail.walk · moves)) = .ok trail ∧
          tree.ShowsAt trail (start + Trail.Move.distance moves).toNat entry) ∧
      (¬ Trail.Move.Stays tree.toList.length start moves →
        (tree.root.seekOffset start >>= (Trail.walk · moves)) = .ok [])) ∧
    (∀ offset < tree.toList.length, ∃ place, tree.placeAt offset = .ok place ∧
      place.advanced tree.root =
        (if offset + 1 < tree.toList.length then (tree.placeAt (offset + 1)).map some
          else .ok none) ∧
      place.retreated tree.root =
        if 0 < offset then (tree.placeAt (offset - 1)).map some else .ok none) := by
  have sound := reached.isSound
  obtain ⟨height, shaped⟩ := sound.shaped
  obtain ⟨first, last⟩ := ends_eq sound
  refine ⟨⟨first, last, shaped.ends_empty⟩, fun start moves => ⟨?_, ?_⟩, ?_⟩
  · intro stays
    obtain ⟨there, sought, leads⟩ := Node.seekOffset_leads shaped stays.start_lt
    obtain ⟨trail, walked, leads⟩ := leads.walk_leads shaped stays
    obtain ⟨entry, shows⟩ := showsAt_of_leads sound leads
    exact ⟨trail, entry, by simp [sought, walked], shows⟩
  · intro leaves
    by_cases inside : start < tree.toList.length
    · obtain ⟨there, sought, leads⟩ := Node.seekOffset_leads shaped inside
      simpa [sought] using leads.walk_leaves shaped leaves
    · simp [Node.seekOffset_past shaped (Nat.le_of_not_lt inside), Trail.walk_nil]
  · intro offset inside
    obtain ⟨place, placed, leads⟩ :=
      placeAt_leads sound (Nat.lt_of_lt_of_eq inside shaped.total_eq.symm)
    exact ⟨place, placed, placeAt_advanced sound leads, placeAt_retreated sound leads⟩

/-- A walk over a separator and back, one that stops at the end it reaches, and one that
passes it and turns round. -/
theorem walk_isExact_spread :
    spread.Reached ⟨2, 2⟩ ∧
      (∃ trail, (spread.root.seekOffset 3 >>= (Trail.walk · [.next, .next, .next, .prev])) =
        .ok trail ∧ spread.ShowsAt trail 5 (2, 6)) ∧
      (spread.root.seekOffset 6 >>= (Trail.walk · [.next, .next, .prev])) = .ok [] := by
  obtain ⟨_, walks, _⟩ := walk_isExact spread_reached
  obtain ⟨trail, entry, walked, shows⟩ :=
    (walks 3 [.next, .next, .next, .prev]).1 (by decide)
  obtain rfl : (2, 6) = entry := Option.some.inj shows.present
  exact ⟨spread_reached, ⟨trail, walked, shows⟩, (walks 6 _).2 (by decide)⟩

end Tree

end CountedBTree
