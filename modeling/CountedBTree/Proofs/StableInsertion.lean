import CountedBTree.Proofs.TreeReading
import CountedBTree.Proofs.TreeRuns

/-!
# Insertion is stable

An insertion puts its entry behind every entry whose key is not greater, at the one place
that keeps the keys in order and equal keys in the order in which they arrived. An ascending
run is determined by its entries class by class, a class being the entries with equal keys in
the order in which they stand. Inserting an entry adds it to the end of its class and touches
no other, and a stable sort keeps every class as it was. Inserting entries one by one and
going over the tree is therefore a stable sort.
-/

namespace CountedBTree

variable {κ ν : Type} [Ord κ]

/-- The entries with a key equal to the given one, in the order in which they stand. -/
def classOf (key : κ) (entries : List (κ × ν)) : List (κ × ν) :=
  entries.filter (fun entry => (compare entry.1 key).isEq)

/-- The class in two runs is the class in one followed by the class in the other. -/
theorem classOf_append (key : κ) (first second : List (κ × ν)) :
    classOf key (first ++ second) = classOf key first ++ classOf key second :=
  List.filter_append ..

/-- A run with one entry more, behind every entry whose key is not greater. -/
def insertStable (entries : List (κ × ν)) (entry : κ × ν) : List (κ × ν) :=
  entries.insertIdx (countUpTo entry.1 entries) entry

/-- Keys compared as they stand in entries. -/
def notAfter (earlier later : κ × ν) : Bool := (compare earlier.1 later.1).isLE

section Classes

variable [Std.TransOrd κ]

/-- An entry is in its own class. -/
theorem isEq_self (entry : κ × ν) : (compare entry.1 entry.1).isEq = true := by
  simp [Std.ReflCmp.compare_self]

/-- Ascending runs with the same classes are the same run.

The first entry of either run is in the other run, so neither is less than the other; their
keys are equal and both begin the same class. -/
theorem Ascending.eq_of_classes {first second : List (κ × ν)} (firstAscending : Ascending first)
    (secondAscending : Ascending second)
    (classes : ∀ key, classOf key first = classOf key second) : first = second := by
  induction first generalizing second with
  | nil =>
    cases second with
    | nil => rfl
    | cons entry rest =>
      have none := classes entry.1
      simp [classOf] at none
  | cons entry rest inductionHypothesis =>
    obtain ⟨least, restAscending⟩ := List.pairwise_cons.mp firstAscending
    cases second with
    | nil =>
      have none := classes entry.1
      simp [classOf] at none
    | cons other others =>
      obtain ⟨otherLeast, othersAscending⟩ := List.pairwise_cons.mp secondAscending
      have entryThere : entry ∈ other :: others := by
        have member : entry ∈ classOf entry.1 (entry :: rest) := by
          simp [classOf]
        rw [classes] at member
        exact (List.mem_filter.mp member).1
      have otherHere : other ∈ entry :: rest := by
        have member : other ∈ classOf other.1 (other :: others) := by
          simp [classOf]
        rw [← classes] at member
        exact (List.mem_filter.mp member).1
      have entryFirst : (compare entry.1 other.1).isLE = true := by
        rcases List.mem_cons.mp otherHere with rfl | later
        · simp [Std.ReflCmp.compare_self]
        · exact least other later
      have otherFirst : (compare other.1 entry.1).isLE = true := by
        rcases List.mem_cons.mp entryThere with rfl | later
        · simp [Std.ReflCmp.compare_self]
        · exact otherLeast entry later
      have sameKey : compare other.1 entry.1 = .eq :=
        Std.OrientedCmp.isLE_antisymm otherFirst entryFirst
      have same : entry = other := by
        have heads := classes entry.1
        simp only [classOf, List.filter_cons, isEq_self entry, ↓reduceIte, sameKey] at heads
        exact (List.cons.inj heads).1
      subst same
      congr 1
      refine inductionHypothesis restAscending othersAscending ?_
      intro key
      have tails := classes key
      simp only [classOf, List.filter_cons] at tails ⊢
      cases belongs : (compare entry.1 key).isEq with
      | true => simpa [belongs] using tails
      | false => simpa [belongs] using tails

/-- A stable insertion adds its entry to the end of its class. -/
theorem classOf_insertStable {entries : List (κ × ν)} (ascending : Ascending entries)
    (entry : κ × ν) (key : κ) :
    classOf key (insertStable entries entry) = classOf key (entries ++ [entry]) := by
  have split := List.take_append_drop (countUpTo entry.1 entries) entries
  rw [insertStable, insertIdx_eq_take_drop _ _ _ (countUpTo_le_length entry.1 entries)]
  conv => rhs; rw [← split]
  simp only [classOf, List.filter_append, List.filter_cons, List.filter_nil]
  cases belongs : (compare entry.1 key).isEq with
  | false => simp
  | true =>
    have none : (entries.drop (countUpTo entry.1 entries)).filter
        (fun other => (compare other.1 key).isEq) = [] := by
      refine List.filter_eq_nil_iff.mpr ?_
      intro other member
      have sameKey : compare entry.1 key = .eq := by simpa using belongs
      have after := ascending.greater entry.1 other member
      rw [Std.TransCmp.congr_right sameKey] at after
      simp [after]
    simp [none]

/-- Inserting entries one by one keeps every class in the order of arrival. -/
theorem foldl_insertStable (pairs : List (κ × ν)) {start : List (κ × ν)}
    (ascending : Ascending start) :
    Ascending (pairs.foldl insertStable start) ∧
      ∀ key, classOf key (pairs.foldl insertStable start) = classOf key (start ++ pairs) := by
  induction pairs generalizing start with
  | nil => exact ⟨ascending, fun key => by simp⟩
  | cons pair pairs inductionHypothesis =>
    obtain ⟨ordered, classes⟩ :=
      inductionHypothesis (ascending.insert_upTo pair.1 pair.2)
    refine ⟨ordered, ?_⟩
    intro key
    have added := classOf_insertStable ascending pair key
    calc classOf key (pairs.foldl insertStable (insertStable start pair))
        = classOf key (insertStable start pair ++ pairs) := classes key
      _ = classOf key (insertStable start pair) ++ classOf key pairs := classOf_append ..
      _ = classOf key (start ++ [pair] ++ pairs) := by rw [added, ← classOf_append]
      _ = classOf key (start ++ pair :: pairs) := by rw [List.append_assoc]; rfl

/-- Order between entries is transitive and total. -/
theorem notAfter_trans (first second third : κ × ν) (early : notAfter first second = true)
    (late : notAfter second third = true) : notAfter first third = true :=
  Std.TransCmp.isLE_trans early late

theorem notAfter_total (first second : κ × ν) :
    (notAfter first second || notAfter second first) = true := by
  rcases Bool.eq_false_or_eq_true (notAfter first second) with ordered | unordered
  · simp [ordered]
  · have greater : compare first.1 second.1 = .gt := by simpa [notAfter] using unordered
    simp [notAfter, Std.OrientedCmp.lt_of_gt greater]

/-- A stable sort keeps every class as it was. -/
theorem classOf_mergeSort (pairs : List (κ × ν)) (key : κ) :
    classOf key (pairs.mergeSort notAfter) = classOf key pairs := by
  have alike : (classOf key pairs).Pairwise (fun earlier later => notAfter earlier later) := by
    refine List.pairwise_of_forall_mem_list ?_
    intro earlier early later late
    have earlyKey : compare earlier.1 key = .eq := by
      simpa [classOf] using (List.mem_filter.mp early).2
    have lateKey : compare later.1 key = .eq := by
      simpa [classOf] using (List.mem_filter.mp late).2
    rw [notAfter, Std.TransCmp.congr_right lateKey, earlyKey]
    rfl
  have inside := List.sublist_mergeSort notAfter_trans notAfter_total alike List.filter_sublist
  have within : (classOf key pairs).Sublist (classOf key (pairs.mergeSort notAfter)) := by
    have filtered := inside.filter (fun entry => (compare entry.1 key).isEq)
    simpa only [classOf, List.filter_filter, Bool.and_self] using filtered
  refine (within.eq_of_length ?_).symm
  exact ((List.mergeSort_perm pairs notAfter).filter _).length_eq.symm

/-- Inserting the entries of a list one by one sorts it stably. -/
theorem foldl_insertStable_eq_mergeSort (pairs : List (κ × ν)) :
    pairs.foldl insertStable [] = pairs.mergeSort notAfter := by
  obtain ⟨ordered, classes⟩ := @foldl_insertStable κ ν _ _ pairs [] List.Pairwise.nil
  refine ordered.eq_of_classes (List.pairwise_mergeSort notAfter_trans notAfter_total pairs) ?_
  intro key
  rw [classes, List.nil_append, classOf_mergeSort]

end Classes

namespace Tree

variable [Footprint κ] [Footprint ν]

/-- Insert the entries of a list into an empty tree one by one, and go over the tree. -/
def sortThrough (capacities : Capacities) (pairs : List (κ × ν)) :
    Traced Fault (List (κ × ν)) := do
  let start ← Tree.empty capacities
  let tree ← start.insertAll pairs
  let sweep ← tree.sweep
  sweep.toList

variable [Std.TransOrd κ]

/-- Entries inserted one by one arrive one by one in the list of a tree, each through its own
gate. -/
theorem insertAll_admits (pairs : List (κ × ν)) {tree : Tree κ ν} (sound : tree.Sound) :
    (tree.capacities.roomAlong κ ν tree.generation
        (List.range' (tree.size + 1) pairs.length)).Admits (tree.insertAll pairs).outcome
      (fun after => after.Sound ∧ after.toList = pairs.foldl insertStable tree.toList) := by
  induction pairs generalizing tree with
  | nil => exact .of_open rfl ⟨sound, rfl⟩
  | cons pair pairs inductionHypothesis =>
    have unfolded : (tree.insertAll (pair :: pairs)).outcome =
        (tree.insertKey pair.1 pair.2).outcome >>= fun current =>
          (current.insertAll pairs).outcome := by
      rw [← Traced.outcome_bind]
      rfl
    rw [unfolded, List.length_cons, List.range'_succ, List.foldl_cons]
    refine (insertKey_admits sound pair.1 pair.2).bind ?_
    intro current becomes
    have longer : current.size = tree.size + 1 := by
      rw [size_eq becomes.sound, becomes.listed, length_inserted sound]
    have further := inductionHypothesis becomes.sound
    rwa [becomes.capacities_eq, becomes.generation_eq, longer, becomes.listed] at further

/-- Sorting through a tree is answered as long as it can be filled. -/
theorem sortThrough_admits {capacities : Capacities} (leafRoom : 2 ≤ capacities.leaf)
    (branchRoom : 2 ≤ capacities.branch) (pairs : List (κ × ν)) :
    (capacities.roomToFill κ ν pairs.length).Admits (sortThrough capacities pairs).outcome
      (fun sorted => sorted = pairs.mergeSort notAfter) := by
  simp only [sortThrough, Capacities.roomToFill, Traced.outcome_bind, Traced.outcome_lift]
  refine (empty_admits leafRoom branchRoom).bind ?_
  rintro start ⟨sound, rfl, unwritten, none⟩
  have inserted := insertAll_admits pairs sound
  rw [unwritten, size_eq sound, none] at inserted
  refine inserted.bind_ok ?_
  rintro after ⟨afterSound, listed⟩
  obtain ⟨sweep, swept, gathered, _⟩ := sweep_pullAll afterSound []
  rw [foldl_insertStable_eq_mergeSort] at listed
  exact ⟨after.toList, by rw [swept, Checked.ok_bind, gathered], listed⟩

/-- In every tree that a run leads to, an insertion puts its entry behind all entries whose
key is not greater and leaves the others as they are, in their order. From an empty tree on,
this makes going over the inserted entries a stable sort by key: nothing is lost or doubled,
and equal keys come in the order in which they were inserted. Refusals are those of the gates. -/
theorem insertion_isStable {capacities : Capacities} (leafRoom : 2 ≤ capacities.leaf)
    (branchRoom : 2 ≤ capacities.branch) :
    (∀ tree : Tree κ ν, tree.Reached capacities → ∀ (key : κ) (value : ν),
      (tree.roomFor (tree.size + 1)).Admits (tree.insertKey key value).outcome (fun after =>
        after.toList = tree.toList.insertIdx
          (tree.toList.countP (fun entry => (compare entry.1 key).isLE)) (key, value) ∧
        after.size = tree.size + 1)) ∧
    ∀ pairs : List (κ × ν),
      (capacities.roomToFill κ ν pairs.length).Admits (sortThrough capacities pairs).outcome
        (fun sorted =>
          sorted = pairs.mergeSort (fun earlier later => (compare earlier.1 later.1).isLE)) := by
  constructor
  · intro tree reached key value
    have sound := reached.isSound
    apply (insertKey_admits sound key value).imp
    intro after _ becomes
    refine ⟨becomes.listed, ?_⟩
    rw [size_eq becomes.sound, becomes.listed, length_inserted sound]
  · exact sortThrough_admits leafRoom branchRoom

/-- Two keys that arrive twice each, in the smallest nodes there can be. -/
theorem insertion_isStable_twice :
    (2 ≤ (Capacities.uniform 2).leaf ∧ 2 ≤ (Capacities.uniform 2).branch) ∧
      (sortThrough (Capacities.uniform 2) [(2, 0), (1, 1), (2, 2), (1, 3)]).outcome =
        (.ok [(1, 1), (1, 3), (2, 0), (2, 2)] : Checked (List (Nat × Nat))) := by
  refine ⟨⟨by decide, by decide⟩, ?_⟩
  have stable := (@insertion_isStable Nat Nat _ _ _ _ (Capacities.uniform 2) (by decide)
    (by decide)).2 [(2, 0), (1, 1), (2, 2), (1, 3)]
  have sorted : [(2, 0), (1, 1), (2, 2), (1, 3)].mergeSort
      (fun earlier later : Nat × Nat => (compare earlier.1 later.1).isLE) =
        [(1, 1), (1, 3), (2, 0), (2, 2)] := by
    simp [List.mergeSort, List.MergeSort.Internal.splitInTwo, compare,
      compareOfLessAndEq]
  rw [sorted] at stable
  obtain ⟨listed, ran, rfl⟩ := stable.answers rfl
  exact ran

end Tree

end CountedBTree
