import CountedBTree.Proofs.TreeRuns

/-!
# Updating the last equal key

The entries with keys equal to a given one stand together in an ascending run, directly in
front of the gap where the key would be inserted. The last of them is the entry in front of
the gap, and without an equal key there is none anywhere. An updating insertion looks at that
entry only, wherever in the tree it is, and therefore changes the value of the last equal key
or is a plain insertion.

A changed value leaves the outline of the tree as it was. The update is always claimed by the
leaf or by a separator on the way down to it, never handed up past the root.
-/

namespace CountedBTree

variable {κ ν : Type}

variable [Ord κ] [Std.TransOrd κ]

section Runs

variable {run : List (κ × ν)} {key : κ} {entry : κ × ν}

/-- The first equal entry stands behind the lesser keys only, and giving it a value leaves
everything around it alone. -/
theorem Ascending.first_of_find (ascending : Ascending run)
    (first : run.find? (fun entry => (compare entry.1 key).isEq) = some entry) :
    ∃ front back, run = front ++ entry :: back ∧ compare entry.1 key = .eq ∧
      front.length = countBelow key run ∧ (∀ other ∈ front, compare other.1 key = .lt) ∧
      ∀ value, run.set (countBelow key run) (entry.1, value) =
        front ++ (entry.1, value) :: back := by
  rw [← ascending.entryEqualTo_eq_find] at first
  obtain ⟨present, sameKey⟩ := entryEqualTo_eq_some.mp first
  obtain ⟨inside, rfl⟩ := List.getElem?_eq_some_iff.mp present
  refine ⟨run.take (countBelow key run), run.drop (countBelow key run + 1), ?_,
    by simpa using sameKey, ?_, ?_, ?_⟩
  · rw [← List.drop_eq_getElem_cons inside, List.take_append_drop]
  · rw [List.length_take, Nat.min_eq_left (Nat.le_of_lt inside)]
  · intro other member
    simpa using (ascending.cut_below key).take_countP other member
  · intro value
    rw [List.set_eq_take_append_cons_drop, if_pos inside]

/-- An equal entry in front of the gap of its key is the last one, and giving it a value
leaves everything around it alone. -/
theorem Ascending.last_of_equalBefore (ascending : Ascending run)
    (equal : equalBefore key run (countUpTo key run) = some entry) :
    ∃ front back, run = front ++ entry :: back ∧ compare entry.1 key = .eq ∧
      (∀ other ∈ back, compare other.1 key ≠ .eq) ∧
      ∀ value, run.set (countUpTo key run - 1) (entry.1, value) =
        front ++ (entry.1, value) :: back := by
  have behind := ascending.greater key
  cases gap : countUpTo key run with
  | zero => simp [gap, equalBefore] at equal
  | succ place =>
    rw [gap] at equal behind
    obtain ⟨present, sameKey⟩ := entryEqualTo_eq_some.mp equal
    obtain ⟨inside, rfl⟩ := List.getElem?_eq_some_iff.mp present
    refine ⟨run.take place, run.drop (place + 1), ?_, by simpa using sameKey, ?_, ?_⟩
    · rw [← List.drop_eq_getElem_cons inside, List.take_append_drop]
    · intro other member sameOther
      rw [behind other member] at sameOther
      cases sameOther
    · intro value
      rw [Nat.add_sub_cancel, List.set_eq_take_append_cons_drop, if_pos inside]

/-- Without an equal entry in front of the gap of a key there is none at all: one further in
front would make the entries between the two equal as well. -/
theorem Ascending.absent_of_equalBefore (ascending : Ascending run)
    (absent : equalBefore key run (countUpTo key run) = none) :
    ∀ entry ∈ run, compare entry.1 key ≠ .eq := by
  intro entry member sameKey
  have front := ascending.not_greater key
  have early : entry ∈ run.take (countUpTo key run) := by
    rw [← List.take_append_drop (countUpTo key run) run] at member
    rcases List.mem_append.mp member with early | late
    · exact early
    · rw [ascending.greater key entry late] at sameKey
      cases sameKey
  cases gap : countUpTo key run with
  | zero => simp [gap] at early
  | succ place =>
    rw [gap] at absent early front
    have inside : place < run.length := by
      have bound := countUpTo_le_length key run
      omega
    rw [List.take_succ_eq_append_getElem inside] at early front
    have notGreater : (compare run[place].1 key).isLE = true :=
      front _ (List.mem_append_right _ (List.mem_singleton_self _))
    -- The entry in front of the gap stands between the equal one and the gap.
    have equalLast : compare run[place].1 key = .eq := by
      rcases List.mem_append.mp early with earlier | same
      · rw [← List.take_append_drop place run, List.drop_eq_getElem_cons inside] at ascending
        have ordered := (List.pairwise_append.mp ascending).2.2 entry earlier _
          List.mem_cons_self
        exact equal_between ordered sameKey notGreater
      · rwa [← List.mem_singleton.mp same]
    have found : equalBefore key run (place + 1) = some run[place] :=
      entryEqualTo_eq_some.mpr ⟨List.getElem?_eq_getElem inside, by simp [equalLast]⟩
    simp [found] at absent

/-- Without an equal key there is none in front of the gap of the key. -/
theorem Ascending.equalBefore_absent (ascending : Ascending run)
    (absent : run.find? (fun entry => (compare entry.1 key).isEq) = none) :
    equalBefore key run (countUpTo key run) = none := by
  cases equal : equalBefore key run (countUpTo key run) with
  | none => rfl
  | some last =>
    obtain ⟨front, back, split, sameKey, _⟩ := ascending.last_of_equalBefore equal
    have apart := List.find?_eq_none.mp absent last (by simp [split])
    simp [sameKey] at apart

end Runs

namespace Tree

variable [Footprint κ] [Footprint ν] {tree : Tree κ ν} {capacities : Capacities}

/-- In every tree that a run leads to, an updating insertion of a key that is there answers
the value of the last entry with an equal key and replaces just that value: all keys, all other
values, and every node with its capacity and count stay as they were. Without an equal key
it builds the tree that a plain insertion builds, and answers no value. The first is refused
only if the write cannot be counted, the second through the gate of a plain insertion, and an
update is never left unclaimed. -/
theorem update_hitsLast (reached : tree.Reached capacities) (key : κ) (value : ν) :
    ((∃ entry ∈ tree.toList, compare entry.1 key = .eq) →
      ∃ front last back, tree.toList = front ++ last :: back ∧
        compare last.1 key = .eq ∧ (∀ other ∈ back, compare other.1 key ≠ .eq) ∧
        (tree.insertOrUpdate key value).events = [] ∧
        tree.checkGeneration.Admits (tree.insertOrUpdate key value).outcome (fun answer =>
          answer.1 = some last.2 ∧ answer.2.toList = front ++ (last.1, value) :: back ∧
          answer.2.root.outline = tree.root.outline ∧
          answer.2.capacities = tree.capacities ∧
          answer.2.size = tree.size ∧ answer.2.height = tree.height)) ∧
    ((∀ entry ∈ tree.toList, compare entry.1 key ≠ .eq) →
      tree.insertOrUpdate key value =
          (tree.insertKey key value >>= fun after => pure (none, after)) ∧
        (tree.roomFor (tree.size + 1)).Admits (tree.insertOrUpdate key value).outcome
          (fun answer => answer.1 = none ∧
            (tree.insertKey key value).outcome = .ok answer.2)) ∧
    (tree.insertOrUpdate key value).outcome ≠ .error .updateUnclaimed := by
  have sound := reached.isSound
  refine ⟨?_, ?_, ?_⟩
  · rintro ⟨entry, member, sameKey⟩
    cases equal : equalBefore key tree.toList (countUpTo key tree.toList) with
    | none => exact absurd sameKey (sound.ascending.absent_of_equalBefore equal entry member)
    | some last =>
      obtain ⟨front, back, split, lastKey, others, replaced⟩ :=
        sound.ascending.last_of_equalBefore equal
      obtain ⟨silent, admits⟩ := insertOrUpdate_last sound value equal
      refine ⟨front, last, back, split, lastKey, others, silent, admits.imp ?_⟩
      rintro answer _ ⟨previous, revalues⟩
      exact ⟨previous, revalues.listed.trans (replaced value), revalues.outline_eq,
        revalues.capacities_eq, Node.total_of_outline revalues.outline_eq, revalues.height_eq⟩
  · intro distinct
    cases equal : equalBefore key tree.toList (countUpTo key tree.toList) with
    | some last =>
      obtain ⟨front, back, split, lastKey, _⟩ := sound.ascending.last_of_equalBefore equal
      exact absurd lastKey (distinct last (by simp [split]))
    | none =>
      have plain := insertOrUpdate_absent sound value equal
      refine ⟨plain, ?_⟩
      rw [plain, Traced.outcome_bind]
      apply (insertKey_admits sound key value).given.bind_ok
      rintro after ⟨ran, _⟩
      exact ⟨(none, after), rfl, rfl, ran⟩
  · intro unclaimed
    have shut := (insertOrUpdate_admits sound key value).gate_of_error unclaimed
    rcases Capacities.roomFor_error sound.branchRoom shut with other | other <;> cases other

/-- The last entry of a key is a separator above the leaf that the descent ends in, with
equal keys on every level in front of it. -/
theorem update_hitsLast_separator :
    spread.Reached ⟨2, 2⟩ ∧ ∃ after, spread.insertOrUpdate 2 9 = ⟨[], .ok (some 7, after)⟩ ∧
      after.toList = [(1, 1), (1, 5), (2, 0), (2, 2), (2, 4), (2, 6), (2, 9), (3, 3)] ∧
      after.root.outline = spread.root.outline := by
  obtain ⟨present, _, _⟩ := update_hitsLast spread_reached 2 9
  obtain ⟨front, last, back, _, _, _, silent, admits⟩ := present ⟨(2, 7), by decide, rfl⟩
  obtain ⟨⟨old, after⟩, ran, previous, _, outline, _⟩ := admits.answers rfl
  have answered : (spread.insertOrUpdate 2 9).outcome.map
      (fun answer => (answer.1, answer.2.toList)) =
        .ok (some 7, [(1, 1), (1, 5), (2, 0), (2, 2), (2, 4), (2, 6), (2, 9), (3, 3)]) := by
    cbv
  rw [ran] at answered
  obtain ⟨rfl, listed⟩ := Prod.mk.inj (Except.ok.inj answered)
  refine ⟨spread_reached, after, ?_, listed, outline⟩
  rw [← ran, ← silent]

end Tree

end CountedBTree
