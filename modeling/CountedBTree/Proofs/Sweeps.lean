import CountedBTree.Pull
import CountedBTree.Proofs.Walk

/-!
# Taking from both ends of a list

A supply of items stands for the list of those still left: taking from the front gives the
head and leaves the tail, taking from the back gives the last item and leaves the others.
These two steps and the count decide every script of requests, so a supply that takes them
like a list answers every script like one.

Sweeps and drains stand for a run of consecutive offsets of a subtree in this way. The
trails, or places, at the two ends move by single steps; the count stops them before they
could pass each other.
-/

namespace CountedBTree

variable {σ α κ ν : Type}

/-- A list as a supply of its own items. -/
def TwoEnded.ofList : TwoEnded (List α) α where
  next run := .ok (run.head?, run.tail)
  prev run := .ok (run.getLast?, run.dropLast)
  remaining := List.length

/-- The states of a supply that stand for lists take from both ends as these lists do. -/
structure TwoEnded.Stands (source : TwoEnded σ α) (standsFor : σ → List α → Prop) : Prop where
  next : ∀ state run, standsFor state run →
    ∃ after, source.next state = .ok (run.head?, after) ∧ standsFor after run.tail
  prev : ∀ state run, standsFor state run →
    ∃ after, source.prev state = .ok (run.getLast?, after) ∧ standsFor after run.dropLast
  remaining : ∀ state run, standsFor state run → source.remaining state = run.length

namespace TwoEnded

/-- Taking from the front gives the items in order. -/
theorem take_next {source : TwoEnded σ α} {standsFor : σ → List α → Prop}
    (stands : source.Stands standsFor) (count : Nat) {state : σ} {run : List α}
    (standing : standsFor state run) :
    ∃ after, take source.next count state = .ok (run.take count, after) ∧
      standsFor after (run.drop count) := by
  induction count generalizing state run with
  | zero => exact ⟨state, rfl, standing⟩
  | succ count inductionHypothesis =>
    obtain ⟨after, taken, standing⟩ := stands.next state run standing
    cases run with
    | nil => exact ⟨after, by simp [take, taken], standing⟩
    | cons first rest =>
      obtain ⟨final, more, standing⟩ := inductionHypothesis standing
      have more : take source.next count after = .ok (rest.take count, final) := more
      exact ⟨final, by simp [take, taken, more], standing⟩

/-- Taking from the back gives the items in the opposite order. -/
theorem take_prev {source : TwoEnded σ α} {standsFor : σ → List α → Prop}
    (stands : source.Stands standsFor) (count : Nat) {state : σ} {run : List α}
    (standing : standsFor state run) :
    ∃ after, take source.prev count state = .ok (run.reverse.take count, after) ∧
      standsFor after (run.take (run.length - count)) := by
  induction count generalizing state run with
  | zero => exact ⟨state, rfl, by simpa using standing⟩
  | succ count inductionHypothesis =>
    obtain ⟨after, taken, standing⟩ := stands.prev state run standing
    rcases run.eq_nil_or_concat with rfl | ⟨front, last, rfl⟩
    · exact ⟨after, by simp [take, taken], by simpa using standing⟩
    · rw [List.concat_eq_append] at standing taken ⊢
      rw [List.dropLast_concat] at standing
      obtain ⟨final, more, standing⟩ := inductionHypothesis standing
      refine ⟨final, by simp [take, taken, more], ?_⟩
      rwa [List.length_append, List.length_singleton, Nat.add_sub_add_right,
        List.take_append_of_le_length (Nat.sub_le _ _)]

/-- A list stands for itself. -/
theorem ofList_stands : (ofList : TwoEnded (List α) α).Stands Eq where
  next := by
    rintro run _ rfl
    exact ⟨run.tail, rfl, rfl⟩
  prev := by
    rintro run _ rfl
    exact ⟨run.dropLast, rfl, rfl⟩
  remaining := by
    rintro run _ rfl
    rfl

/-- Taking all from the front gives the whole list. -/
theorem rest_eq {source : TwoEnded σ α} {standsFor : σ → List α → Prop}
    (stands : source.Stands standsFor) {state : σ} {run : List α}
    (standing : standsFor state run) :
    ∃ after, source.rest state = .ok (run, after) ∧ standsFor after [] := by
  obtain ⟨after, taken, standingAfter⟩ := take_next stands run.length standing
  rw [List.take_length] at taken
  rw [List.drop_length] at standingAfter
  exact ⟨after, by rw [rest, stands.remaining state run standing, taken], standingAfter⟩

/-- Taking all from the back gives the whole list in the opposite order. -/
theorem restBack_eq {source : TwoEnded σ α} {standsFor : σ → List α → Prop}
    (stands : source.Stands standsFor) {state : σ} {run : List α}
    (standing : standsFor state run) :
    ∃ after, source.restBack state = .ok (run.reverse, after) ∧ standsFor after [] := by
  obtain ⟨after, taken, standingAfter⟩ := take_prev stands run.length standing
  rw [← List.length_reverse, List.take_length, List.length_reverse] at taken
  rw [Nat.sub_self, List.take_zero] at standingAfter
  exact ⟨after, by rw [restBack, stands.remaining state run standing, taken], standingAfter⟩

/-- A request is answered like the list answers it, and leaves what the list leaves. -/
theorem pull_eq {source : TwoEnded σ α} {standsFor : σ → List α → Prop}
    (stands : source.Stands standsFor) (request : Pull) {state : σ} {run : List α}
    (standing : standsFor state run) :
    ∃ answer after final, source.pull state request = .ok (answer, after) ∧
      ofList.pull run request = .ok (answer, final) ∧ standsFor after final := by
  cases request with
  | front =>
    obtain ⟨after, taken, standing⟩ := stands.next state run standing
    exact ⟨.item run.head?, after, run.tail, by simp [pull, taken], rfl, standing⟩
  | back =>
    obtain ⟨after, taken, standing⟩ := stands.prev state run standing
    exact ⟨.item run.getLast?, after, run.dropLast, by simp [pull, taken], rfl, standing⟩
  | left =>
    have count := stands.remaining state run standing
    exact ⟨.left run.length, state, run, by simp [pull, count], rfl, standing⟩
  | preview =>
    obtain ⟨after, taken, _⟩ := rest_eq stands standing
    obtain ⟨_, takenHere, _⟩ := rest_eq ofList_stands (Eq.refl run)
    exact ⟨.items run, state, run, by simp [pull, taken], by simp [pull, takenHere], standing⟩
  | rest =>
    obtain ⟨after, taken, standing⟩ := rest_eq stands standing
    obtain ⟨_, takenHere, rfl⟩ := rest_eq ofList_stands (Eq.refl run)
    exact ⟨.items run, after, [], by simp [pull, taken], by simp [pull, takenHere], standing⟩
  | restBack =>
    obtain ⟨after, taken, standing⟩ := restBack_eq stands standing
    obtain ⟨_, takenHere, rfl⟩ := restBack_eq ofList_stands (Eq.refl run)
    exact ⟨.items run.reverse, after, [], by simp [pull, taken], by simp [pull, takenHere],
      standing⟩

/-- A script of requests is answered like the list answers it. -/
theorem pullAll_eq {source : TwoEnded σ α} {standsFor : σ → List α → Prop}
    (stands : source.Stands standsFor) (script : List Pull) {state : σ} {run : List α}
    (standing : standsFor state run) :
    source.pullAll script state = ofList.pullAll script run := by
  induction script generalizing state run with
  | nil => rfl
  | cons request script inductionHypothesis =>
    obtain ⟨answer, after, final, answered, answeredHere, standing⟩ :=
      pull_eq stands request standing
    simp [pullAll, answered, answeredHere, inductionHypothesis standing]

/-- Images of items are supplied like the list of images. -/
theorem Stands.map {β : Type} {source : TwoEnded σ α} {standsFor : σ → List α → Prop}
    (stands : source.Stands standsFor) (image : α → β) :
    (source.map image).Stands
      (fun state images => ∃ run, standsFor state run ∧ images = run.map image) where
  next := by
    rintro state _ ⟨run, standing, rfl⟩
    obtain ⟨after, taken, standing⟩ := stands.next state run standing
    exact ⟨after, by simp [TwoEnded.map, taken], run.tail, standing, by simp⟩
  prev := by
    rintro state _ ⟨run, standing, rfl⟩
    obtain ⟨after, taken, standing⟩ := stands.prev state run standing
    exact ⟨after, by simp [TwoEnded.map, taken], run.dropLast, standing, by simp⟩
  remaining := by
    rintro state _ ⟨run, standing, rfl⟩
    simpa [TwoEnded.map] using stands.remaining state run standing

end TwoEnded

/-- A run of consecutive items begins with the one at its start. -/
theorem drop_take_succ (items : List α) {start : Nat} (count : Nat)
    (inside : start < items.length) :
    (items.drop start).take (count + 1) =
      items[start] :: (items.drop (start + 1)).take count := by
  rw [List.drop_eq_getElem_cons inside, List.take_succ_cons]

/-- A run of consecutive items ends with the one before its stop. -/
theorem drop_take_concat (items : List α) {start count : Nat}
    (inside : start + count < items.length) :
    (items.drop start).take (count + 1) =
      (items.drop start).take count ++ [items[start + count]] := by
  have within : count < (items.drop start).length := by
    rw [List.length_drop]
    omega
  rw [List.take_succ_eq_append_getElem within, List.getElem_drop]

/-- A sweep stands for the entries at a run of offsets when its trails lead to the ends. -/
def Sweep.Covers (root : Node κ ν) (sweep : Sweep κ ν) (run : List (κ × ν)) : Prop :=
  ∃ start, start + sweep.remaining ≤ root.toList.length ∧
    run = (root.toList.drop start).take sweep.remaining ∧
    (0 < sweep.remaining → Trail.Leads root sweep.front start ∧
      Trail.Leads root sweep.back (start + (sweep.remaining - 1)))

section Sweeps

variable {capacities : Capacities} {height : Nat} {root : Node κ ν}

/-- A sweep takes entries from both ends of its run. -/
theorem Sweep.source_stands (shaped : Node.Shaped capacities height root) :
    (Sweep.source : TwoEnded (Sweep κ ν) (κ × ν)).Stands (Sweep.Covers root) where
  next := by
    rintro ⟨front, back, remaining⟩ _ ⟨start, inside, rfl, ends⟩
    match remaining with
    | 0 => exact ⟨⟨front, back, 0⟩, rfl, start, inside, rfl, ends⟩
    | count + 1 =>
      obtain ⟨atFront, atBack⟩ := ends (Nat.succ_pos count)
      have here : start < root.toList.length := atFront.offset_lt shaped
      obtain ⟨entry, present, found⟩ := atFront.entry_eq shaped
      have same : root.toList[start] = entry := by
        rw [List.getElem?_eq_getElem here] at present
        exact Option.some.inj present
      rw [drop_take_succ _ _ here, same]
      cases count with
      | zero =>
        refine ⟨⟨front, back, 0⟩, by simp [Sweep.source, Sweep.next, found], start + 1, ?_, rfl,
          by simp⟩
        simpa using inside
      | succ count =>
        obtain ⟨moved, stepped, leads⟩ := atFront.next_leads shaped (by simp at inside; omega)
        refine ⟨⟨moved, back, count + 1⟩, by simp [Sweep.source, Sweep.next, found, stepped],
          start + 1, by simp at inside ⊢; omega, rfl, fun _ => ⟨leads, ?_⟩⟩
        simpa [Nat.add_assoc, Nat.add_comm, Nat.add_left_comm] using atBack
  prev := by
    rintro ⟨front, back, remaining⟩ _ ⟨start, inside, rfl, ends⟩
    match remaining with
    | 0 => exact ⟨⟨front, back, 0⟩, rfl, start, inside, rfl, ends⟩
    | count + 1 =>
      obtain ⟨atFront, atBack⟩ := ends (Nat.succ_pos count)
      have there : start + count < root.toList.length := atBack.offset_lt shaped
      obtain ⟨entry, present, found⟩ := atBack.entry_eq shaped
      have same : root.toList[start + count] = entry := by
        rw [Nat.add_sub_cancel, List.getElem?_eq_getElem there] at present
        exact Option.some.inj present
      rw [drop_take_concat _ there, same, List.getLast?_concat, List.dropLast_concat]
      cases count with
      | zero =>
        refine ⟨⟨front, back, 0⟩, by simp [Sweep.source, Sweep.prev, found], start, ?_, rfl,
          by simp⟩
        exact Nat.le_of_lt there
      | succ count =>
        obtain ⟨moved, stepped, leads⟩ := atBack.prev_leads shaped
        exact ⟨⟨front, moved, count + 1⟩, by simp [Sweep.source, Sweep.prev, found, stepped],
          start, Nat.le_of_lt there, rfl, fun _ => ⟨atFront, leads⟩⟩
  remaining := by
    rintro ⟨front, back, remaining⟩ _ ⟨start, inside, rfl, _⟩
    rw [List.length_take, List.length_drop]
    have enough : remaining ≤ root.toList.length - start := by
      have inside : start + remaining ≤ root.toList.length := inside
      omega
    exact (Nat.min_eq_left enough).symm

/-- A sweep over a run of offsets stands for the entries there, cut off at the end. -/
theorem Sweep.ofOffsets_covers (shaped : Node.Shaped capacities height root) (start stop : Nat) :
    ∃ sweep, Sweep.ofOffsets root start stop = .ok sweep ∧
      sweep.Covers root ((root.toList.take stop).drop start) := by
  have counted := shaped.total_eq
  generalize finishes : min stop root.total = finish
  have bound : finish ≤ root.toList.length := by omega
  have cut : root.toList.take stop = root.toList.take finish := by
    rw [← finishes, counted, ← List.take_eq_take_min]
  rw [cut, List.drop_take]
  by_cases begins : start < finish
  · obtain ⟨front, soughtFront, atFront⟩ := Node.seekOffset_leads shaped
      (by omega : start < root.toList.length)
    obtain ⟨back, soughtBack, atBack⟩ := Node.seekOffset_leads shaped
      (by omega : finish - 1 < root.toList.length)
    have low : min start finish = start := by omega
    have last : start + (finish - start - 1) = finish - 1 := by omega
    refine ⟨⟨front, back, finish - start⟩, ?_, start, ?_, rfl, ?_⟩
    · simp [Sweep.ofOffsets, finishes, low, begins, soughtFront, soughtBack]
    · simp only
      omega
    · intro _
      exact ⟨atFront, last ▸ atBack⟩
  · have none : finish - start = 0 := by omega
    have high : min start finish = finish := by omega
    refine ⟨⟨[], [], 0⟩, by simp [Sweep.ofOffsets, finishes, high], 0, by simp, ?_, by simp⟩
    rw [none]
    rfl

end Sweeps

end CountedBTree
