import CountedBTree.Bounds
import CountedBTree.Proofs.KeyOrder

/-!
# Entries between key bounds

A lower bound rules out the first keys of an ascending run and an upper bound the last ones.
So the entries that satisfy both are those at a run of offsets, from the number of entries
that the lower bound rules out up to the number of those that the upper bound lets in. When
the bounds cross, no entry satisfies both, and the run is empty.
-/

namespace CountedBTree

variable {α κ ν : Type}

namespace Cut

variable {holds : α → Bool} {run : List α}

/-- The yes answers of a run that is cut are its first entries. -/
theorem filter_eq_take (cut : Cut holds run) : run.filter holds = run.take (run.countP holds) := by
  conv => lhs; rw [← List.take_append_drop (run.countP holds) run]
  have first := List.filter_eq_self.mpr cut.take_countP
  have last : (run.drop (run.countP holds)).filter holds = [] := by
    apply List.filter_eq_nil_iff.mpr
    intro entry member
    simp [cut.drop_countP entry member]
  rw [List.filter_append, first, last, List.append_nil]

/-- The no answers of a run that is cut are its last entries. -/
theorem filter_not_eq_drop (cut : Cut holds run) :
    run.filter (fun entry => !holds entry) = run.drop (run.countP holds) := by
  conv => lhs; rw [← List.take_append_drop (run.countP holds) run]
  have first : (run.take (run.countP holds)).filter (fun entry => !holds entry) = [] := by
    apply List.filter_eq_nil_iff.mpr
    intro entry member
    simp [cut.take_countP entry member]
  have last : (run.drop (run.countP holds)).filter (fun entry => !holds entry) =
      run.drop (run.countP holds) := by
    apply List.filter_eq_self.mpr
    intro entry member
    simp [cut.drop_countP entry member]
  rw [List.filter_append, first, last, List.nil_append]

/-- Leaving out the first entries of a run that is cut leaves out as many yes answers. -/
theorem countP_drop (cut : Cut holds run) (count : Nat) :
    (run.drop count).countP holds = run.countP holds - count := by
  induction run generalizing count with
  | nil => simp
  | cons first rest inductionHypothesis =>
    have restCut : Cut holds rest := (List.pairwise_cons.mp cut).2
    cases count with
    | zero => simp
    | succ count =>
      rw [List.drop_succ_cons, inductionHypothesis restCut]
      cases answer : holds first with
      | true =>
        rw [List.countP_cons_of_pos answer]
        omega
      | false =>
        have fromFirst : Cut holds ([] ++ first :: rest) := cut
        have none : rest.countP holds = 0 := by
          apply List.countP_eq_zero.mpr
          intro entry member
          simp [fromFirst.after_no answer entry member]
        rw [List.countP_cons_of_neg (by simp [answer]), none, Nat.zero_sub, Nat.zero_sub]

/-- What one cut lets in and another one does not rule out are the entries between them. -/
theorem filter_between {ruledOut letIn : α → Bool} (low : Cut ruledOut run)
    (high : Cut letIn run) :
    run.filter (fun entry => !ruledOut entry && letIn entry) =
      (run.take (run.countP letIn)).drop (run.countP ruledOut) := by
  have further : Cut letIn (run.drop (run.countP ruledOut)) :=
    high.of_sublist (List.drop_sublist _ _)
  calc run.filter (fun entry => !ruledOut entry && letIn entry)
      = (run.filter (fun entry => !ruledOut entry)).filter letIn := by
        rw [List.filter_filter]
        simp [Bool.and_comm]
    _ = (run.drop (run.countP ruledOut)).take (run.countP letIn - run.countP ruledOut) := by
        rw [low.filter_not_eq_drop, further.filter_eq_take, high.countP_drop]
    _ = (run.take (run.countP letIn)).drop (run.countP ruledOut) := List.drop_take.symm

end Cut

variable [Ord κ]

namespace Bound

/-- Whether a range that starts at the bound has begun at a key. -/
def allowsFrom (key : κ) : Bound κ → Bool
  | included start => (compare key start).isGE
  | excluded start => (compare key start).isGT
  | unbounded => true

/-- Whether a range that stops at the bound has not ended before a key. -/
def allowsUpTo (key : κ) : Bound κ → Bool
  | included stop => (compare key stop).isLE
  | excluded stop => (compare key stop).isLT
  | unbounded => true

end Bound

/-- The entries whose keys satisfy two bounds. -/
def entriesBetween (low high : Bound κ) (entries : List (κ × ν)) : List (κ × ν) :=
  entries.filter (fun entry => low.allowsFrom entry.1 && high.allowsUpTo entry.1)

section Offsets

variable {m : Type → Type} [Monad m] {less notGreater : κ → m Nat} {entries : List (κ × ν)}

/-- A range starts behind the entries that its lower bound rules out. -/
theorem Bound.startOffset_eq (low : Bound κ)
    (below : ∀ key, less key = pure (countBelow key entries))
    (upTo : ∀ key, notGreater key = pure (countUpTo key entries)) :
    low.startOffset less notGreater =
      pure (entries.countP (fun entry => !low.allowsFrom entry.1)) := by
  cases low with
  | included start => simp [startOffset, below, countBelow, allowsFrom]
  | excluded start => simp [startOffset, upTo, countUpTo, allowsFrom]
  | unbounded =>
    simp only [startOffset, allowsFrom, Bool.not_true, List.countP_false]
    rfl

/-- A range stops behind the entries that its upper bound lets in. -/
theorem Bound.stopOffset_eq (high : Bound κ)
    (below : ∀ key, less key = pure (countBelow key entries))
    (upTo : ∀ key, notGreater key = pure (countUpTo key entries)) :
    high.stopOffset entries.length less notGreater =
      pure (entries.countP (fun entry => high.allowsUpTo entry.1)) := by
  cases high with
  | included stop => simp [stopOffset, upTo, countUpTo, allowsUpTo]
  | excluded stop => simp [stopOffset, below, countBelow, allowsUpTo]
  | unbounded => simp only [stopOffset, allowsUpTo, List.countP_true]

/-- The offsets of a range come from the two counts alone, whatever answers these counts. -/
theorem OffsetRange.between_eq [LawfulMonad m] (low high : Bound κ)
    (below : ∀ key, less key = pure (countBelow key entries))
    (upTo : ∀ key, notGreater key = pure (countUpTo key entries)) :
    OffsetRange.between low high entries.length less notGreater =
      pure ⟨entries.countP (fun entry => !low.allowsFrom entry.1),
        max (entries.countP (fun entry => high.allowsUpTo entry.1))
          (entries.countP (fun entry => !low.allowsFrom entry.1))⟩ := by
  simp [between, low.startOffset_eq below upTo, high.stopOffset_eq below upTo]

/-- The offsets between two bounds in the keys of a run. -/
theorem OffsetRange.inSorted_eq (entries : List (κ × ν)) (low high : Bound κ) :
    inSorted (entries.map Prod.fst) low high =
      ⟨entries.countP (fun entry => !low.allowsFrom entry.1),
        max (entries.countP (fun entry => high.allowsUpTo entry.1))
          (entries.countP (fun entry => !low.allowsFrom entry.1))⟩ := by
  rw [inSorted, List.length_map]
  exact congrArg Id.run (between_eq low high (fun key => congrArg pure List.countP_map)
    (fun key => congrArg pure List.countP_map))

end Offsets

variable [Std.TransOrd κ] {entries : List (κ × ν)}

/-- A lower bound rules out the first entries of an ascending run. -/
theorem Ascending.cut_ruledOut (ascending : Ascending entries) (low : Bound κ) :
    Cut (fun entry => !low.allowsFrom entry.1) entries := by
  cases low with
  | included start => simpa [Bound.allowsFrom] using ascending.cut_below start
  | excluded start => simpa [Bound.allowsFrom] using ascending.cut_upTo start
  | unbounded => exact List.pairwise_of_forall (fun _ _ yes => yes)

/-- An upper bound lets in the first entries of an ascending run. -/
theorem Ascending.cut_letIn (ascending : Ascending entries) (high : Bound κ) :
    Cut (fun entry => high.allowsUpTo entry.1) entries := by
  cases high with
  | included stop => exact ascending.cut_upTo stop
  | excluded stop => exact ascending.cut_below stop
  | unbounded => exact List.pairwise_of_forall (fun _ _ yes => yes)

/-- The entries between two bounds are those at the offsets between the two counts. -/
theorem Ascending.entriesBetween_eq (ascending : Ascending entries) (low high : Bound κ) :
    entriesBetween low high entries =
      (entries.take (entries.countP (fun entry => high.allowsUpTo entry.1))).drop
        (entries.countP (fun entry => !low.allowsFrom entry.1)) := by
  rw [← (ascending.cut_ruledOut low).filter_between (ascending.cut_letIn high)]
  simp [entriesBetween]

/-- The entries between two bounds are those at the offsets of the range. -/
theorem Ascending.entriesBetween_inSorted (ascending : Ascending entries) (low high : Bound κ) :
    entriesBetween low high entries =
      (entries.take (OffsetRange.inSorted (entries.map Prod.fst) low high).stop).drop
        (OffsetRange.inSorted (entries.map Prod.fst) low high).start := by
  rw [ascending.entriesBetween_eq, OffsetRange.inSorted_eq]
  generalize entries.countP (fun entry => !low.allowsFrom entry.1) = start
  generalize entries.countP (fun entry => high.allowsUpTo entry.1) = stop
  -- Moving the stop up to the start adds nothing to the run.
  have same : max stop start - start = stop - start := by omega
  rw [List.drop_take, List.drop_take, same]

end CountedBTree
