import CountedBTree.Proofs.Interleaving
import CountedBTree.Proofs.WalkRuns

/-!
# Drains and sweeps in step

A drain keeps places where a sweep keeps trails, and follows a place again from the root for
every entry it takes. As long as entries are left, its places are those that the trails of the
sweep lead to: a place gives its trail back, so both step from the same trail. The count is
the same in both, and it alone decides when there is nothing left to step to.

A drain therefore stands for the same list as the sweep it mirrors, and the two answer every
string of takes from both ends alike, with the same count after every take.
-/

namespace CountedBTree

variable {σ α κ ν : Type}

/-! ## Strings of takes -/

namespace TwoEnded

/-- Take from one end after the other. Every answer comes with the number of items left after
it. -/
def takeEach (source : TwoEnded σ α) : List End → σ → Checked (List (Option α × Nat) × σ)
  | [], state => .ok ([], state)
  | side :: sides, state => do
      let (answer, after) ← source.takeAt side state
      let (answers, final) ← takeEach source sides after
      pure ((answer, source.remaining after) :: answers, final)

/-- A string of takes is answered like the list answers it, and leaves what the list leaves. -/
theorem takeEach_eq {source : TwoEnded σ α} {standsFor : σ → List α → Prop}
    (stands : source.Stands standsFor) (sides : List End) {state : σ} {run : List α}
    (standing : standsFor state run) :
    ∃ answers final rest, source.takeEach sides state = .ok (answers, final) ∧
      ofList.takeEach sides run = .ok (answers, rest) ∧ standsFor final rest := by
  induction sides generalizing state run with
  | nil => exact ⟨[], state, run, rfl, rfl, standing⟩
  | cons side sides inductionHypothesis =>
    obtain ⟨answer, after, middle, taken, takenHere, standing⟩ := takeAt_eq stands side standing
    obtain ⟨answers, final, rest, further, furtherHere, standingOn⟩ :=
      inductionHypothesis standing
    have left : source.remaining after = middle.length := stands.remaining after middle standing
    have leftHere : (ofList : TwoEnded (List α) α).remaining middle = middle.length := rfl
    refine ⟨(answer, middle.length) :: answers, final, rest, ?_, ?_, standingOn⟩
    · simp [takeEach, taken, further, left]
    · simp [takeEach, takenHere, furtherHere, leftHere]

/-- A take gives nothing just if nothing is left. -/
theorem takeAt_eq_none {source : TwoEnded σ α} {standsFor : σ → List α → Prop}
    (stands : source.Stands standsFor) (side : End) {state : σ} {run : List α}
    (standing : standsFor state run) :
    ∃ answer after, source.takeAt side state = .ok (answer, after) ∧
      (answer = none ↔ source.remaining state = 0) := by
  obtain ⟨answer, after, rest, taken, takenHere, _⟩ := takeAt_eq stands side standing
  refine ⟨answer, after, taken, ?_⟩
  rw [stands.remaining state run standing, List.length_eq_zero_iff]
  cases side with
  | front =>
    obtain ⟨rfl, rfl⟩ := Prod.mk.inj (Except.ok.inj takenHere)
    exact List.head?_eq_none_iff
  | back =>
    obtain ⟨rfl, rfl⟩ := Prod.mk.inj (Except.ok.inj takenHere)
    exact List.getLast?_eq_none_iff

end TwoEnded

/-! ## One step -/

section Steps

variable {root : Node κ ν} {trail : Trail κ ν} {place : Place κ ν} {offset : Nat}

/-- A place is followed to the trail it was taken from. -/
theorem Trail.Leads.followed (leads : Trail.Leads root trail offset)
    (taken : Place.ofTrail trail = some place) : place.trail root = .ok trail := by
  obtain ⟨other, otherTaken, followed⟩ := leads.place
  obtain rfl : other = place := Option.some.inj (otherTaken.symm.trans taken)
  exact followed

/-- Advancing a place steps its trail forwards. -/
theorem Trail.Leads.advanced_eq (leads : Trail.Leads root trail offset)
    (taken : Place.ofTrail trail = some place) :
    place.advanced root = trail.next.map Place.ofTrail := by
  rw [Place.advanced, leads.followed taken, Checked.ok_bind]
  cases trail.next <;> rfl

/-- Retreating a place steps its trail backwards. -/
theorem Trail.Leads.retreated_eq (leads : Trail.Leads root trail offset)
    (taken : Place.ofTrail trail = some place) :
    place.retreated root = trail.prev.map Place.ofTrail := by
  rw [Place.retreated, leads.followed taken, Checked.ok_bind]
  cases trail.prev <;> rfl

/-- A trail to an entry gives a place, and both show the entry. -/
theorem Trail.Leads.shown {capacities : Capacities} {height : Nat}
    (leads : Trail.Leads root trail offset) (shaped : Node.Shaped capacities height root) :
    ∃ place entry, Place.ofTrail trail = some place ∧ place.entry = .ok entry ∧
      trail.entry? = .ok (some entry) := by
  obtain ⟨place, taken, placeLeads⟩ := leads.toPlace
  obtain ⟨entry, present, shown⟩ := leads.entry_eq shaped
  obtain ⟨other, presentThere, reads⟩ := placeLeads.entry_eq shaped
  obtain rfl : entry = other := Option.some.inj (present.symm.trans presentThere)
  exact ⟨place, entry, taken, reads, shown⟩

end Steps

namespace Drain

/-- As long as entries are left, the drain keeps the places that the trails of the sweep lead
to. -/
structure Mirrors (drain : Drain κ ν) (root : Node κ ν) (sweep : Sweep κ ν) : Prop where
  root_eq : drain.root = root
  remaining_eq : drain.remaining = sweep.remaining
  front_eq : 0 < sweep.remaining → drain.front = Place.ofTrail sweep.front
  back_eq : 0 < sweep.remaining → drain.back = Place.ofTrail sweep.back

section Simulation

variable {capacities : Capacities} {height : Nat} {root : Node κ ν}
variable {drain : Drain κ ν} {sweep after : Sweep κ ν} {run : List (κ × ν)}
variable {answer : Option (κ × ν)}

/-- A take from the front keeps a drain in step with the sweep. -/
theorem Mirrors.next (mirrors : drain.Mirrors root sweep) (covers : sweep.Covers root run)
    (shaped : Node.Shaped capacities height root) (taken : sweep.next = .ok (answer, after)) :
    ∃ drained, drain.next = .ok (answer, drained) ∧ drained.Mirrors root after := by
  obtain ⟨front, back, left⟩ := sweep
  obtain ⟨held, atFront, atBack, count⟩ := drain
  obtain ⟨sameRoot, sameCount, frontSame, backSame⟩ := mirrors
  simp only at sameRoot sameCount frontSame backSame
  subst sameRoot sameCount
  obtain ⟨start, _, _, ends⟩ := covers
  match count with
  | 0 =>
    obtain ⟨rfl, rfl⟩ := Prod.mk.inj (Except.ok.inj taken)
    exact ⟨_, rfl, rfl, rfl, frontSame, backSame⟩
  | 1 =>
    obtain ⟨place, entry, placed, reads, shown⟩ := (ends Nat.one_pos).1.shown shaped
    obtain rfl : atFront = some place := (frontSame Nat.one_pos).trans placed
    simp only [Sweep.next, shown, Checked.ok_bind, Checked.pure_eq] at taken
    obtain ⟨rfl, rfl⟩ := Prod.mk.inj (Except.ok.inj taken)
    refine ⟨⟨held, none, atBack, 0⟩, by simp [Drain.next, reads], rfl, rfl, ?_, ?_⟩
    · exact fun more => absurd more (Nat.lt_irrefl 0)
    · exact fun more => absurd more (Nat.lt_irrefl 0)
  | more + 2 =>
    have someLeft : 0 < more + 2 := Nat.succ_pos _
    obtain ⟨place, entry, placed, reads, shown⟩ := (ends someLeft).1.shown shaped
    obtain rfl : atFront = some place := (frontSame someLeft).trans placed
    have follows := (ends someLeft).1.advanced_eq placed
    simp only [Sweep.next, shown, Checked.ok_bind] at taken
    obtain ⟨moved, stepped, taken⟩ := Checked.bind_eq_ok.mp taken
    obtain ⟨rfl, rfl⟩ := Prod.mk.inj (Except.ok.inj taken)
    rw [stepped] at follows
    refine ⟨⟨held, Place.ofTrail moved, atBack, more + 1⟩,
      by simp [Drain.next, follows, Except.map, reads], rfl, rfl, ?_, ?_⟩
    · exact fun _ => rfl
    · exact fun _ => backSame someLeft

/-- A take from the back keeps a drain in step with the sweep. -/
theorem Mirrors.prev (mirrors : drain.Mirrors root sweep) (covers : sweep.Covers root run)
    (shaped : Node.Shaped capacities height root) (taken : sweep.prev = .ok (answer, after)) :
    ∃ drained, drain.prev = .ok (answer, drained) ∧ drained.Mirrors root after := by
  obtain ⟨front, back, left⟩ := sweep
  obtain ⟨held, atFront, atBack, count⟩ := drain
  obtain ⟨sameRoot, sameCount, frontSame, backSame⟩ := mirrors
  simp only at sameRoot sameCount frontSame backSame
  subst sameRoot sameCount
  obtain ⟨start, _, _, ends⟩ := covers
  match count with
  | 0 =>
    obtain ⟨rfl, rfl⟩ := Prod.mk.inj (Except.ok.inj taken)
    exact ⟨_, rfl, rfl, rfl, frontSame, backSame⟩
  | 1 =>
    obtain ⟨place, entry, placed, reads, shown⟩ := (ends Nat.one_pos).2.shown shaped
    obtain rfl : atBack = some place := (backSame Nat.one_pos).trans placed
    simp only [Sweep.prev, shown, Checked.ok_bind, Checked.pure_eq] at taken
    obtain ⟨rfl, rfl⟩ := Prod.mk.inj (Except.ok.inj taken)
    refine ⟨⟨held, atFront, none, 0⟩, by simp [Drain.prev, reads], rfl, rfl, ?_, ?_⟩
    · exact fun more => absurd more (Nat.lt_irrefl 0)
    · exact fun more => absurd more (Nat.lt_irrefl 0)
  | more + 2 =>
    have someLeft : 0 < more + 2 := Nat.succ_pos _
    obtain ⟨place, entry, placed, reads, shown⟩ := (ends someLeft).2.shown shaped
    obtain rfl : atBack = some place := (backSame someLeft).trans placed
    have follows := (ends someLeft).2.retreated_eq placed
    simp only [Sweep.prev, shown, Checked.ok_bind] at taken
    obtain ⟨moved, stepped, taken⟩ := Checked.bind_eq_ok.mp taken
    obtain ⟨rfl, rfl⟩ := Prod.mk.inj (Except.ok.inj taken)
    rw [stepped] at follows
    refine ⟨⟨held, atFront, Place.ofTrail moved, more + 1⟩,
      by simp [Drain.prev, follows, Except.map, reads], rfl, rfl, ?_, ?_⟩
    · exact fun _ => frontSame someLeft
    · exact fun _ => rfl

/-- A drain that mirrors a sweep takes entries from both ends of the same run. -/
theorem source_stands (shaped : Node.Shaped capacities height root) :
    (Drain.source : TwoEnded (Drain κ ν) (κ × ν)).Stands
      (fun drain run => ∃ sweep : Sweep κ ν, sweep.Covers root run ∧ drain.Mirrors root sweep) where
  next := by
    rintro drain run ⟨sweep, covers, mirrors⟩
    obtain ⟨after, taken, coversAfter⟩ := (Sweep.source_stands shaped).next sweep run covers
    obtain ⟨drained, takenHere, mirrorsAfter⟩ := mirrors.next covers shaped taken
    exact ⟨drained, takenHere, after, coversAfter, mirrorsAfter⟩
  prev := by
    rintro drain run ⟨sweep, covers, mirrors⟩
    obtain ⟨after, taken, coversAfter⟩ := (Sweep.source_stands shaped).prev sweep run covers
    obtain ⟨drained, takenHere, mirrorsAfter⟩ := mirrors.prev covers shaped taken
    exact ⟨drained, takenHere, after, coversAfter, mirrorsAfter⟩
  remaining := by
    rintro drain run ⟨sweep, covers, mirrors⟩
    exact mirrors.remaining_eq.trans ((Sweep.source_stands shaped).remaining sweep run covers)

end Simulation

end Drain

namespace Tree

variable [Ord κ] [Footprint κ] [Footprint ν] {tree : Tree κ ν}

/-- The drain of a tree mirrors the sweep over all its entries. -/
theorem drain_mirrors (sound : tree.Sound) :
    ∃ sweep drain, tree.sweep = .ok sweep ∧ Drain.ofRoot tree.root = .ok drain ∧
      sweep.Covers tree.root tree.toList ∧ drain.Mirrors tree.root sweep := by
  obtain ⟨height, shaped⟩ := sound.shaped
  obtain ⟨sweep, swept, covers⟩ := sweep_covers sound
  have counts : sweep.remaining = tree.root.total :=
    ((Sweep.source_stands shaped).remaining sweep _ covers).trans (size_eq sound).symm
  by_cases occupied : tree.root.toList = []
  · obtain ⟨noFirst, noLast⟩ := shaped.ends_empty occupied
    have none_left : sweep.remaining = 0 := by
      rw [counts, shaped.total_eq, occupied, List.length_nil]
    refine ⟨sweep, ⟨tree.root, none, none, tree.root.total⟩, swept, ?_, covers, rfl,
      counts.symm, fun more => ?_, fun more => ?_⟩
    · simp [Drain.ofRoot, noFirst, noLast, Place.ofTrail]
    · omega
    · omega
  · obtain ⟨first, descended, atFirst⟩ := shaped.leftmost_leads occupied
    obtain ⟨last, descendedLast, atLast⟩ := shaped.rightmost_leads occupied
    obtain ⟨start, inside, run, ends⟩ := covers
    have fromStart : start = 0 := by
      rw [counts, shaped.total_eq] at inside
      omega
    subst fromStart
    refine ⟨sweep, ⟨tree.root, Place.ofTrail first, Place.ofTrail last, tree.root.total⟩, swept,
      ?_, ⟨0, inside, run, ends⟩, rfl, counts.symm, fun more => ?_, fun more => ?_⟩
    · simp [Drain.ofRoot, descended, descendedLast]
    · rw [atFirst.unique (ends more).1 shaped]
    · have lastOffset := (ends more).2
      rw [Nat.zero_add, counts, shaped.total_eq] at lastOffset
      rw [atLast.unique lastOffset shaped]

/-- Every script is answered by a drain as over the list of entries. -/
theorem drain_pullAll (sound : tree.Sound) (script : List Pull) :
    ∃ drain, Drain.ofRoot tree.root = .ok drain ∧
      Drain.source.pullAll script drain = TwoEnded.ofList.pullAll script tree.toList := by
  obtain ⟨height, shaped⟩ := sound.shaped
  obtain ⟨sweep, drain, _, made, covers, mirrors⟩ := drain_mirrors sound
  have stands := Drain.source_stands shaped
  exact ⟨drain, made, TwoEnded.pullAll_eq stands script ⟨sweep, covers, mirrors⟩⟩

variable [Std.TransOrd κ] {capacities : Capacities}

/-- In every tree that a run leads to, the drain answers every string of takes from either end
like the sweep over the whole tree: the same entries, and the same number left after each
take. Both answer like the list of entries, and the drain gives nothing just if its count says
that nothing is left. -/
theorem drain_agrees (reached : tree.Reached capacities) :
    ∃ drain sweep, Drain.ofRoot tree.root = .ok drain ∧ tree.sweep = .ok sweep ∧
      drain.remaining = tree.toList.length ∧ sweep.remaining = tree.toList.length ∧
      ∀ sides, ∃ answers drained swept rest,
        Drain.source.takeEach sides drain = .ok (answers, drained) ∧
        Sweep.source.takeEach sides sweep = .ok (answers, swept) ∧
        TwoEnded.ofList.takeEach sides tree.toList = .ok (answers, rest) ∧
        drained.remaining = swept.remaining ∧
        ∀ side, ∃ answer after, Drain.source.takeAt side drained = .ok (answer, after) ∧
          (answer = none ↔ drained.remaining = 0) := by
  have sound := reached.isSound
  obtain ⟨height, shaped⟩ := sound.shaped
  obtain ⟨sweep, drain, swept, made, covers, mirrors⟩ := drain_mirrors sound
  have stands := Drain.source_stands shaped
  have sweepStands := Sweep.source_stands shaped
  have count : sweep.remaining = tree.toList.length := sweepStands.remaining sweep _ covers
  refine ⟨drain, sweep, made, swept, mirrors.remaining_eq.trans count, count, fun sides => ?_⟩
  obtain ⟨answers, drained, rest, taken, takenHere, standing⟩ :=
    TwoEnded.takeEach_eq stands sides ⟨sweep, covers, mirrors⟩
  obtain ⟨others, sweptOn, otherRest, takenBeside, takenThere, coversOn⟩ :=
    TwoEnded.takeEach_eq sweepStands sides covers
  obtain ⟨rfl, rfl⟩ := Prod.mk.inj (Except.ok.inj (takenHere.symm.trans takenThere))
  refine ⟨answers, drained, sweptOn, rest, taken, takenBeside, takenHere, ?_, fun side => ?_⟩
  · exact (stands.remaining drained rest standing).trans
      (sweepStands.remaining sweptOn rest coversOn).symm
  · exact TwoEnded.takeAt_eq_none stands side standing

/-- Takes from both ends of three levels, two of them after the last entry is gone. -/
theorem drain_agrees_spread :
    spread.Reached ⟨2, 2⟩ ∧ ∃ drain drained answers, Drain.ofRoot spread.root = .ok drain ∧
      Drain.source.takeEach [.front, .back, .back, .front, .front, .back, .front, .front, .back,
        .front] drain = .ok (answers, drained) ∧
      answers = [(some (1, 1), 7), (some (3, 3), 6), (some (2, 7), 5), (some (1, 5), 4),
        (some (2, 0), 3), (some (2, 6), 2), (some (2, 2), 1), (some (2, 4), 0), (none, 0),
        (none, 0)] := by
  obtain ⟨drain, sweep, made, _, _, _, agrees⟩ := drain_agrees spread_reached
  obtain ⟨answers, drained, swept, rest, taken, _, takenHere, _⟩ := agrees
    [.front, .back, .back, .front, .front, .back, .front, .front, .back, .front]
  refine ⟨spread_reached, drain, drained, answers, made, taken, ?_⟩
  exact (Prod.mk.inj (Except.ok.inj (takenHere.symm.trans rfl))).1

end Tree

end CountedBTree
