import CountedBTree.Proofs.Sweeps
import CountedBTree.Proofs.TreeRuns

/-!
# Takes from both ends and copies, in any order

A supply is asked at its front and at its back in any order, and copies of it are taken on
the way and asked in turn. At every moment the items of a supply fall into three parts: those
its front gave out, those still left, and those its back gave out, the last one first. A take
moves one item from the middle to the side it is asked at, and only an empty middle answers
none. So the answers since any moment divide what was left at that moment, and they can be
put together over several requests.

A copy begins with the state and the answers of its original. Requests to one of the two
never reach the other, and both divide what was left when the copy was taken.
-/

namespace CountedBTree

variable {σ α κ ν : Type}

/-- The items at the offsets from `start` up to, but not including, `stop`. Both are cut off
at the end of the items, and the start at the stop. -/
def slice (items : List α) (start stop : Nat) : List α :=
  let finish := min stop items.length
  items.extract (min start finish) finish

/-- A slice is what is left of the items before its stop without those before its start. -/
theorem slice_eq (items : List α) (start stop : Nat) :
    slice items start stop = (items.take stop).drop start := by
  rw [slice, List.extract_eq_take_drop, List.drop_take]
  rcases Nat.lt_or_ge start (min stop items.length) with before | past
  · rw [Nat.min_eq_left (Nat.le_of_lt before), List.take_eq_take_iff, List.length_drop]
    omega
  · have none : (items.drop start).take (stop - start) = [] := by
      rw [List.take_eq_nil_iff, List.drop_eq_nil_iff]
      omega
    rw [none, Nat.min_eq_right past, Nat.sub_self, List.take_zero]

namespace TwoEnded

/-- An end of a supply. -/
inductive End where
  | front
  | back
  deriving DecidableEq, Repr

/-- Take an item from an end. -/
def takeAt (source : TwoEnded σ α) : End → σ → Checked (Option α × σ)
  | .front => source.next
  | .back => source.prev

/-- The answers to takes, the oldest first, each beside the end that was asked. -/
abbrev History (α : Type) := List (End × Option α)

/-- The items that an end gave out, in the order in which it did. -/
def given (side : End) (history : History α) : List α :=
  history.filterMap fun answer => if answer.1 = side then answer.2 else none

@[simp]
theorem given_nil (side : End) : given side ([] : History α) = [] := rfl

@[simp]
theorem given_append (side : End) (earlier later : History α) :
    given side (earlier ++ later) = given side earlier ++ given side later :=
  List.filterMap_append

/-- The answers divide a run into what the front gave out, what is left, and what the back
gave out. Takes succeed exactly as long as something is left. -/
structure Divides (run : List α) (history : History α) (left : List α) : Prop where
  answered : ∀ call answer, history[call]? = some answer →
    (answer.2.isSome ↔ call < run.length)
  counted : left.length = run.length - history.length
  divided : run = given .front history ++ left ++ (given .back history).reverse

namespace Divides

/-- Before the first take everything is left. -/
theorem nil (run : List α) : Divides run [] run where
  answered := by simp
  counted := by simp
  divided := by simp

/-- A take divides a run as it divides the list. -/
theorem single {run rest : List α} {side : End} {answer : Option α}
    (taken : ofList.takeAt side run = .ok (answer, rest)) :
    Divides run [(side, answer)] rest := by
  cases side with
  | front =>
    obtain ⟨rfl, rfl⟩ := Prod.mk.inj (Except.ok.inj taken)
    cases run with
    | nil => constructor <;> simp [given, List.getElem?_cons]
    | cons first rest => constructor <;> simp [given, List.getElem?_cons]
  | back =>
    obtain ⟨rfl, rfl⟩ := Prod.mk.inj (Except.ok.inj taken)
    rcases run.eq_nil_or_concat with rfl | ⟨front, last, rfl⟩
    · constructor <;> simp [given, List.getElem?_cons]
    · constructor <;> simp [given, List.getElem?_cons]

/-- What is left after some answers is divided further by the ones that follow. -/
theorem append {run middle left : List α} {earlier later : History α}
    (first : Divides run earlier middle) (second : Divides middle later left) :
    Divides run (earlier ++ later) left where
  answered := by
    intro call answer found
    rcases Nat.lt_or_ge call earlier.length with early | late
    · rw [List.getElem?_append_left early] at found
      exact first.answered call answer found
    · rw [List.getElem?_append_right late] at found
      rw [second.answered _ answer found, first.counted]
      omega
  counted := by
    rw [second.counted, first.counted, List.length_append]
    omega
  divided := by
    rw [first.divided, second.divided]
    simp

end Divides

/-- One holder of a supply, with the answers that led to its state. -/
structure Holder (σ α : Type) where
  /-- What the holder takes from. -/
  state : σ
  /-- The answers to its takes, and to those of the holders it is a copy of before the copy
  was taken. -/
  history : History α

/-- A request to one of several holders. -/
inductive Request where
  /-- The holder with this number takes from an end. -/
  | take (number : Nat) (side : End)
  /-- Another holder begins where the one with this number is. -/
  | copy (number : Nat)
  deriving DecidableEq, Repr

/-- Serve one request. There is nothing to do for a holder that does not exist. -/
def serve (source : TwoEnded σ α) (pool : List (Holder σ α)) :
    Request → Checked (List (Holder σ α))
  | .take number side =>
      match pool[number]? with
      | none => .ok pool
      | some holder => do
          let (answer, after) ← source.takeAt side holder.state
          pure (pool.set number ⟨after, holder.history ++ [(side, answer)]⟩)
  | .copy number =>
      match pool[number]? with
      | none => .ok pool
      | some holder => .ok (pool ++ [holder])

/-- Serve one request after the other. -/
def serveAll (source : TwoEnded σ α) :
    List Request → List (Holder σ α) → Checked (List (Holder σ α))
  | [], pool => .ok pool
  | request :: script, pool => do
      let after ← source.serve pool request
      serveAll source script after

/-- The later holder got the earlier one's answers and some more, which divide whatever was
left before them. -/
def Holder.Continues (standsFor : σ → List α → Prop) (earlier later : Holder σ α) : Prop :=
  ∃ since, later.history = earlier.history ++ since ∧
    ∀ run, standsFor earlier.state run → ∃ left, standsFor later.state left ∧
      Divides run since left

/-- The answers that the later holder got after the earlier one account for a run: they
divide it, what they leave is what the later holder still gives out, and its count says how
much that is. -/
def Holder.Accounts (source : TwoEnded σ α) (run : List α) (earlier later : Holder σ α) :
    Prop :=
  ∃ since left after, later.history = earlier.history ++ since ∧ Divides run since left ∧
    source.rest later.state = .ok (left, after) ∧ source.remaining later.state = left.length

/-- Every holder of the earlier pool is still there under its number, and every holder of
the later pool goes back to an earlier one. -/
structure Continued (standsFor : σ → List α → Prop) (earlier later : List (Holder σ α)) :
    Prop where
  kept : ∀ (number : Nat) (holder : Holder σ α), earlier[number]? = some holder →
    ∃ after, later[number]? = some after ∧ holder.Continues standsFor after
  known : ∀ after ∈ later, ∃ holder ∈ earlier, holder.Continues standsFor after

section Pools

variable {source : TwoEnded σ α} {standsFor : σ → List α → Prop}
variable {earlier middle later : List (Holder σ α)}

theorem Holder.Continues.refl (holder : Holder σ α) : holder.Continues standsFor holder :=
  ⟨[], by simp, fun run standing => ⟨run, standing, .nil run⟩⟩

theorem Holder.Continues.trans {first second third : Holder σ α}
    (once : first.Continues standsFor second) (again : second.Continues standsFor third) :
    first.Continues standsFor third := by
  obtain ⟨since, grown, divides⟩ := once
  obtain ⟨further, grownAgain, dividesAgain⟩ := again
  refine ⟨since ++ further, by rw [grownAgain, grown, List.append_assoc], ?_⟩
  intro run standing
  obtain ⟨middle, standing, firstPart⟩ := divides run standing
  obtain ⟨left, standing, secondPart⟩ := dividesAgain middle standing
  exact ⟨left, standing, firstPart.append secondPart⟩

/-- Holders that continue one account for what it stood for. -/
theorem Holder.Continues.accounts {holder after : Holder σ α} {run : List α}
    (continues : holder.Continues standsFor after) (stands : source.Stands standsFor)
    (standing : standsFor holder.state run) : holder.Accounts source run after := by
  obtain ⟨since, grown, divides⟩ := continues
  obtain ⟨left, standing, divides⟩ := divides run standing
  obtain ⟨final, drained, _⟩ := rest_eq stands standing
  exact ⟨since, left, final, grown, divides, drained, stands.remaining _ _ standing⟩

theorem Continued.refl (pool : List (Holder σ α)) : Continued standsFor pool pool where
  kept _ holder found := ⟨holder, found, .refl holder⟩
  known holder member := ⟨holder, member, .refl holder⟩

theorem Continued.trans (once : Continued standsFor earlier middle)
    (again : Continued standsFor middle later) : Continued standsFor earlier later where
  kept number holder found := by
    obtain ⟨between, foundBetween, continues⟩ := once.kept number holder found
    obtain ⟨after, foundAfter, continuesAgain⟩ := again.kept number between foundBetween
    exact ⟨after, foundAfter, continues.trans continuesAgain⟩
  known after member := by
    obtain ⟨between, memberBetween, continuesAgain⟩ := again.known after member
    obtain ⟨holder, member, continues⟩ := once.known between memberBetween
    exact ⟨holder, member, continues.trans continuesAgain⟩

/-- A take is answered like the list answers it, and leaves what the list leaves. -/
theorem takeAt_eq (stands : source.Stands standsFor) (side : End) {state : σ} {run : List α}
    (standing : standsFor state run) :
    ∃ answer after rest, source.takeAt side state = .ok (answer, after) ∧
      ofList.takeAt side run = .ok (answer, rest) ∧ standsFor after rest := by
  cases side with
  | front =>
    obtain ⟨after, taken, standing⟩ := stands.next state run standing
    exact ⟨run.head?, after, run.tail, taken, rfl, standing⟩
  | back =>
    obtain ⟨after, taken, standing⟩ := stands.prev state run standing
    exact ⟨run.getLast?, after, run.dropLast, taken, rfl, standing⟩

/-- A take continues the holder that took. -/
theorem takeAt_continues (stands : source.Stands standsFor) {side : End}
    {holder : Holder σ α} {answer : Option α} {after : σ}
    (taken : source.takeAt side holder.state = .ok (answer, after)) :
    holder.Continues standsFor ⟨after, holder.history ++ [(side, answer)]⟩ := by
  refine ⟨[(side, answer)], rfl, fun run standing => ?_⟩
  obtain ⟨other, final, rest, takenToo, takenHere, standing⟩ := takeAt_eq stands side standing
  obtain ⟨rfl, rfl⟩ := Prod.mk.inj (Except.ok.inj (taken.symm.trans takenToo))
  exact ⟨rest, standing, .single takenHere⟩

/-- Every request is served, and leaves every holder but the one that takes as it was. -/
theorem serve_continued (stands : source.Stands standsFor) (pool : List (Holder σ α))
    (standing : ∀ holder ∈ pool, ∃ run, standsFor holder.state run) (request : Request) :
    ∃ after, source.serve pool request = .ok after ∧ Continued standsFor pool after := by
  cases request with
  | take number side =>
    cases found : pool[number]? with
    | none => exact ⟨pool, by simp [serve, found], .refl pool⟩
    | some holder =>
      obtain ⟨run, standing⟩ := standing holder (List.mem_of_getElem? found)
      obtain ⟨answer, after, _, taken, _, _⟩ := takeAt_eq stands side standing
      have continues := takeAt_continues stands taken
      refine ⟨_, by simp only [serve, found, taken]; rfl, ?_, ?_⟩
      -- Only the place of the holder that takes is written.
      · intro other unchanged foundOther
        by_cases same : number = other
        · subst same
          obtain rfl := Option.some.inj (found.symm.trans foundOther)
          have inside := (List.getElem?_eq_some_iff.mp found).1
          exact ⟨_, List.getElem?_set_self inside, continues⟩
        · exact ⟨unchanged, by rw [List.getElem?_set_ne same, foundOther], .refl unchanged⟩
      · intro later member
        rcases List.mem_or_eq_of_mem_set member with before | rfl
        · exact ⟨later, before, .refl later⟩
        · exact ⟨holder, List.mem_of_getElem? found, continues⟩
  | copy number =>
    cases found : pool[number]? with
    | none => exact ⟨pool, by simp [serve, found], .refl pool⟩
    | some holder =>
      refine ⟨pool ++ [holder], by simp [serve, found], ?_, ?_⟩
      · intro other unchanged foundOther
        have inside := (List.getElem?_eq_some_iff.mp foundOther).1
        exact ⟨unchanged, by rw [List.getElem?_append_left inside, foundOther],
          .refl unchanged⟩
      · intro later member
        rcases List.mem_append.mp member with before | same
        · exact ⟨later, before, .refl later⟩
        · obtain rfl := List.mem_singleton.mp same
          exact ⟨later, List.mem_of_getElem? found, .refl later⟩

/-- States that continue ones that stand for something do so as well. -/
theorem Continued.standing (continued : Continued standsFor earlier later)
    (standing : ∀ holder ∈ earlier, ∃ run, standsFor holder.state run) :
    ∀ holder ∈ later, ∃ run, standsFor holder.state run := by
  intro after member
  obtain ⟨holder, memberBefore, _, _, divides⟩ := continued.known after member
  obtain ⟨run, standing⟩ := standing holder memberBefore
  obtain ⟨left, standing, _⟩ := divides run standing
  exact ⟨left, standing⟩

/-- A script of requests is served to its end and continues the pool it began with. -/
theorem serveAll_continued (stands : source.Stands standsFor) (script : List Request)
    (pool : List (Holder σ α)) (standing : ∀ holder ∈ pool, ∃ run, standsFor holder.state run) :
    ∃ final, source.serveAll script pool = .ok final ∧ Continued standsFor pool final := by
  induction script generalizing pool with
  | nil => exact ⟨pool, rfl, .refl pool⟩
  | cons request script inductionHypothesis =>
    obtain ⟨after, served, continued⟩ := serve_continued stands pool standing request
    obtain ⟨final, servedAll, continuedOn⟩ :=
      inductionHypothesis after (continued.standing standing)
    exact ⟨final, by simp [serveAll, served, servedAll], continued.trans continuedOn⟩

/-- However a pool with a copy goes on, the original and the copy both account for what was
left when the copy was taken. -/
theorem copied_accounts (stands : source.Stands standsFor) {pool : List (Holder σ α)}
    (standing : ∀ holder ∈ pool, ∃ run, standsFor holder.state run) {number : Nat}
    {holder : Holder σ α} (found : pool[number]? = some holder) {left : List α}
    (here : standsFor holder.state left) (script : List Request) :
    ∃ final original copied, source.serveAll script (pool ++ [holder]) = .ok final ∧
      final[number]? = some original ∧ final[pool.length]? = some copied ∧
      holder.Accounts source left original ∧ holder.Accounts source left copied := by
  have standingAll : ∀ other ∈ pool ++ [holder], ∃ run, standsFor other.state run := by
    intro other member
    rcases List.mem_append.mp member with before | same
    · exact standing other before
    · obtain rfl := List.mem_singleton.mp same
      exact ⟨left, here⟩
  obtain ⟨final, served, continued⟩ := serveAll_continued stands script _ standingAll
  -- The original stands under its old number, the copy under the first free one.
  have inside := (List.getElem?_eq_some_iff.mp found).1
  obtain ⟨original, foundOriginal, continues⟩ := continued.kept number holder
    (by rw [List.getElem?_append_left inside, found])
  obtain ⟨copied, foundCopied, continuesCopied⟩ :=
    continued.kept pool.length holder List.getElem?_concat_length
  exact ⟨final, original, copied, served, foundOriginal, foundCopied,
    continues.accounts stands here, continuesCopied.accounts stands here⟩

end Pools

end TwoEnded

namespace Tree

variable [Ord κ] [Footprint κ] [Footprint ν] [Std.TransOrd κ] {tree : Tree κ ν}
variable {capacities : Capacities}

/-- In every tree that a run leads to, and over every range of offsets, any string of takes
from both ends and copies is served. The answers of every holder divide the entries at those
offsets, from both ends inwards, and its count is the number of entries left. A copy taken at
any point leaves its original where it was, and from there on both divide, each on its own,
what was left at that point. -/
theorem sweep_isAccounted (reached : tree.Reached capacities) (start stop : Nat) :
    ∃ sweep, Sweep.ofOffsets tree.root start stop = .ok sweep ∧
      ∀ script, ∃ pool, Sweep.source.serveAll script [⟨sweep, []⟩] = .ok pool ∧
        (∀ holder ∈ pool, TwoEnded.Holder.Accounts Sweep.source
          (slice tree.toList start stop) ⟨sweep, []⟩ holder) ∧
        ∀ number holder, pool[number]? = some holder →
          ∃ left after, Sweep.source.rest holder.state = .ok (left, after) ∧
            Sweep.source.serve pool (.copy number) = .ok (pool ++ [holder]) ∧
            ∀ more, ∃ final original copied,
              Sweep.source.serveAll more (pool ++ [holder]) = .ok final ∧
              final[number]? = some original ∧ final[pool.length]? = some copied ∧
              holder.Accounts Sweep.source left original ∧
              holder.Accounts Sweep.source left copied := by
  have sound := reached.isSound
  obtain ⟨height, shaped⟩ := sound.shaped
  have stands := Sweep.source_stands shaped
  obtain ⟨sweep, made, covers⟩ := Sweep.ofOffsets_covers shaped start stop
  rw [← slice_eq] at covers
  refine ⟨sweep, made, fun script => ?_⟩
  have standingFirst : ∀ holder ∈ [(⟨sweep, []⟩ : TwoEnded.Holder (Sweep κ ν) (κ × ν))],
      ∃ run, holder.state.Covers tree.root run := by
    simpa using ⟨_, covers⟩
  obtain ⟨pool, served, continued⟩ := TwoEnded.serveAll_continued stands script _ standingFirst
  have standing := continued.standing standingFirst
  refine ⟨pool, served, ?_, ?_⟩
  · intro holder member
    obtain ⟨first, isFirst, continues⟩ := continued.known holder member
    obtain rfl := List.mem_singleton.mp isFirst
    exact continues.accounts stands covers
  · intro number holder found
    obtain ⟨left, here⟩ := standing holder (List.mem_of_getElem? found)
    obtain ⟨after, drained, _⟩ := TwoEnded.rest_eq stands here
    exact ⟨left, after, drained, by simp [TwoEnded.serve, found],
      TwoEnded.copied_accounts stands standing found here⟩

/-- Takes at both ends with a copy taken between them, and one take too many. -/
def takesAndCopy : List TwoEnded.Request :=
  [.take 0 .front, .copy 0, .take 0 .back, .take 1 .front, .take 0 .back, .take 0 .front]

/-- Both holders divide the entries from offset five on, past the stop of the range. -/
theorem sweep_isAccounted_spread :
    spread.Reached ⟨2, 2⟩ ∧ ∃ sweep pool, Sweep.ofOffsets spread.root 5 20 = .ok sweep ∧
      Sweep.source.serveAll takesAndCopy [⟨sweep, []⟩] = .ok pool ∧
      pool.map TwoEnded.Holder.history =
        [[(.front, some (2, 6)), (.back, some (3, 3)), (.back, some (2, 7)), (.front, none)],
          [(.front, some (2, 6)), (.front, some (2, 7))]] ∧
      ∀ holder ∈ pool, TwoEnded.Holder.Accounts Sweep.source [(2, 6), (2, 7), (3, 3)]
        ⟨sweep, []⟩ holder := by
  obtain ⟨sweep, made, accounted⟩ := sweep_isAccounted spread_reached 5 20
  obtain ⟨pool, served, accounts, _⟩ := accounted takesAndCopy
  have answered : ((Sweep.ofOffsets spread.root 5 20 >>= fun sweep =>
      Sweep.source.serveAll takesAndCopy [⟨sweep, []⟩]).map
        (List.map TwoEnded.Holder.history)) =
      .ok [[(.front, some (2, 6)), (.back, some (3, 3)), (.back, some (2, 7)), (.front, none)],
        [(.front, some (2, 6)), (.front, some (2, 7))]] := by
    cbv
  rw [made, Checked.ok_bind, served] at answered
  exact ⟨spread_reached, sweep, pool, made, served, Except.ok.inj answered, accounts⟩

end Tree

end CountedBTree
