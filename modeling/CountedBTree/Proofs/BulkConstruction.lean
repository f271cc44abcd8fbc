import CountedBTree.Proofs.Answers
import CountedBTree.Proofs.UpdateAgreement

/-!
# Dictionaries made in bulk

There are two ways to make a dictionary of a list. One takes the keys to be distinct and never
looks for a key that is there already. What it makes is a stable sort of the list, with all entries
of a key that repeats. The other maps the pairs one after the other, as extending a dictionary
does, and keeps one entry for each key.

What mapping does to a dictionary is told class by class. A class that has entries keeps them, and
its first entry takes the last value given. A class that has none gets one entry, with the first
spelling given and the last value. Since the entries ascend, the classes tell where everything is.

With distinct keys no key is ever there already, so both ways make the same dictionary, down to its
nodes, and the order of the list is of no account.
-/

namespace CountedBTree

variable {κ ν : Type}

/-! ## Classes -/

/-- A class after one of its keys is mapped. -/
def assign : List (κ × ν) → κ × ν → List (κ × ν)
  | [], pair => [pair]
  | first :: others, pair => (first.1, pair.2) :: others

/-- A class that has entries keeps them but for the last value assigned to the first. -/
theorem foldl_assign_cons (given : List (κ × ν)) (first : κ × ν) (others : List (κ × ν)) :
    given.foldl assign (first :: others) =
      (first.1, (given.getLast?.map Prod.snd).getD first.2) :: others := by
  induction given generalizing first with
  | nil => rfl
  | cons pair given inductionHypothesis =>
    rw [List.foldl_cons, assign, inductionHypothesis]
    cases given with
    | nil => rfl
    | cons next given =>
      have last := List.getLast?_eq_some_getLast (List.cons_ne_nil next given)
      rw [List.getLast?_cons_cons, last]
      rfl

variable [Ord κ]

/-- What mapping the pairs of a list makes of the entries of a dictionary, class by class. -/
structure Extends (pairs before after : List (κ × ν)) : Prop where
  ascending : Ascending after
  /-- A class of which nothing is given stays as it is. -/
  untouched : ∀ key, classOf key pairs = [] → classOf key after = classOf key before
  /-- In a class that has entries, the first one takes the last value given. -/
  replaced : ∀ key first others last, classOf key before = first :: others →
    (classOf key pairs).getLast? = some last → classOf key after = (first.1, last.2) :: others
  /-- A class that has no entry gets a single one, with the first spelling and the last value
  given. -/
  added : ∀ key first last, classOf key before = [] → (classOf key pairs).head? = some first →
    (classOf key pairs).getLast? = some last → classOf key after = [(first.1, last.2)]

section Mapping

variable [Std.TransOrd κ] {entries : List (κ × ν)}

/-- Equal keys have one class. -/
theorem classOf_congr {key other : κ} (same : compare key other = .eq) (entries : List (κ × ν)) :
    classOf key entries = classOf other entries := by
  simp only [classOf, Std.TransCmp.congr_right same]

/-- Mapping a key keeps the entries in order. -/
theorem Ascending.putFirst (ascending : Ascending entries) (key : κ) (value : ν) :
    Ascending (putFirst key value entries) := by
  rw [CountedBTree.putFirst]
  cases first : entries.find? (fun entry => (compare entry.1 key).isEq) with
  | none => exact ascending.insert_upTo key value
  | some entry =>
    obtain ⟨front, back, split, _, _, _, replaced⟩ := ascending.first_of_find first
    simp only [replaced]
    apply ascending.of_keys
    rw [split]
    simp

/-- Mapping a key assigns it in its class and touches no other. -/
theorem classOf_putFirst (ascending : Ascending entries) (pair : κ × ν) (key : κ) :
    classOf key (putFirst pair.1 pair.2 entries) =
      if (compare pair.1 key).isEq then assign (classOf key entries) pair
      else classOf key entries := by
  rw [putFirst]
  cases first : entries.find? (fun entry => (compare entry.1 pair.1).isEq) with
  | none =>
    have none : classOf pair.1 entries = [] :=
      List.filter_eq_nil_iff.mpr (List.find?_eq_none.mp first)
    have added := classOf_insertStable ascending pair key
    rw [insertStable, classOf_append] at added
    rw [added]
    by_cases same : compare pair.1 key = .eq
    · rw [classOf_congr same] at none
      rw [none, same, Ordering.isEq_eq, if_pos rfl]
      simp [assign, classOf, same]
    · simp [classOf, same]
  | some entry =>
    obtain ⟨front, back, split, sameKey, _, less, replaced⟩ := ascending.first_of_find first
    simp only [replaced]
    by_cases same : compare pair.1 key = .eq
    · have none : classOf key front = [] := by
        apply List.filter_eq_nil_iff.mpr
        intro other member
        simp [← Std.TransCmp.congr_right same, less other member]
      have inside : compare entry.1 key = .eq := by rwa [← Std.TransCmp.congr_right same]
      conv => rhs; rw [split]
      simp only [classOf_append, none]
      simp [classOf, inside, same, assign]
    · have outside : compare entry.1 key ≠ .eq := by
        rwa [Std.TransCmp.congr_left sameKey]
      conv => rhs; rw [split]
      simp only [classOf_append]
      simp [classOf, outside, same]

/-- Mapping the pairs of a list keeps the entries in order. -/
theorem Ascending.putAll (ascending : Ascending entries) (pairs : List (κ × ν)) :
    Ascending (putAll pairs entries) :=
  pairs.foldlRecOn _ ascending (fun _ ascending pair _ => ascending.putFirst pair.1 pair.2)

/-- Mapping the pairs of a list assigns those of each class in the order given. -/
theorem classOf_putAll (ascending : Ascending entries) (pairs : List (κ × ν)) (key : κ) :
    classOf key (putAll pairs entries) =
      (classOf key pairs).foldl assign (classOf key entries) := by
  induction pairs generalizing entries with
  | nil => rfl
  | cons pair pairs inductionHypothesis =>
    rw [putAll, List.foldl_cons, ← putAll, inductionHypothesis (ascending.putFirst pair.1 pair.2),
      classOf_putFirst ascending]
    by_cases same : compare pair.1 key = .eq <;> simp [classOf, same]

/-- Mapping the pairs of a list does to each class what extending should. -/
theorem putAll_extends (ascending : Ascending entries) (pairs : List (κ × ν)) :
    Extends pairs entries (putAll pairs entries) := by
  have classes := classOf_putAll ascending pairs
  constructor
  case ascending => exact ascending.putAll pairs
  case untouched =>
    intro key none
    rw [classes, none, List.foldl_nil]
  case replaced =>
    intro key first others last held given
    rw [classes, held, foldl_assign_cons, given]
    rfl
  case added =>
    intro key first last none head given
    obtain ⟨rest, split⟩ : ∃ rest, classOf key pairs = first :: rest := by
      cases here : classOf key pairs with
      | nil => simp [here] at head
      | cons pair rest => exact ⟨rest, by simpa [here] using head⟩
    rw [classes, none, split, List.foldl_cons, assign, foldl_assign_cons]
    rw [split] at given
    cases rest <;> simp_all

/-- Sorting keeps the first value of every key. -/
theorem valueOf_mergeSort (key : κ) (pairs : List (κ × ν)) :
    valueOf key (pairs.mergeSort notAfter) = valueOf key pairs := by
  simp only [valueOf, ← List.head?_filter]
  exact congrArg (fun entries => entries.head?.map Prod.snd) (classOf_mergeSort pairs key)

/-- Mapping the pairs of a list keeps keys increasing. -/
theorem Increasing.putAll {entries : List (κ × ν)} (increasing : Increasing entries)
    (pairs : List (κ × ν)) : Increasing (putAll pairs entries) := by
  obtain ⟨same, kept⟩ := increasing.putAll_eq_putEach pairs
  exact same ▸ kept

end Mapping

/-! ## Distinct keys -/

section Distinct

variable [Std.TransOrd κ] {pairs others : List (κ × ν)}

/-- With distinct keys a class has one entry at most. -/
theorem DistinctKeys.length_classOf_le (distinct : DistinctKeys pairs) (key : κ) :
    (classOf key pairs).length ≤ 1 := by
  have apart : DistinctKeys (classOf key pairs) := distinct.sublist List.filter_sublist
  have inside : ∀ entry ∈ classOf key pairs, compare entry.1 key = .eq := by
    intro entry member
    simpa using (List.mem_filter.mp member).2
  generalize classOf key pairs = entries at apart inside ⊢
  match entries, apart, inside with
  | [], _, _ => exact Nat.zero_le _
  | [_], _, _ => exact Nat.le_refl _
  | first :: second :: rest, apart, inside =>
    have differ := (List.pairwise_cons.mp apart).1 second List.mem_cons_self
    have sameSecond := inside second (List.mem_cons_of_mem _ List.mem_cons_self)
    rw [Std.TransCmp.congr_left (inside first List.mem_cons_self)] at differ
    exact absurd (Std.OrientedCmp.eq_symm sameSecond) differ

/-- With distinct keys the order of a list is lost by sorting it. -/
theorem DistinctKeys.mergeSort_perm (distinct : DistinctKeys pairs) (same : others.Perm pairs) :
    others.mergeSort notAfter = pairs.mergeSort notAfter := by
  apply Ascending.eq_of_classes (List.pairwise_mergeSort notAfter_trans notAfter_total others)
    (List.pairwise_mergeSort notAfter_trans notAfter_total pairs)
  intro key
  rw [classOf_mergeSort, classOf_mergeSort]
  have alike : (classOf key others).Perm (classOf key pairs) := same.filter _
  have few := distinct.length_classOf_le key
  generalize classOf key others = given at alike
  generalize classOf key pairs = members at alike few
  match members, few with
  | [], _ => exact alike.eq_nil
  | [entry], _ => exact List.perm_singleton.mp alike

/-- With distinct keys, what is added to nothing is sorted only. -/
theorem DistinctKeys.eq_mergeSort (distinct : DistinctKeys pairs) {entries : List (κ × ν)}
    (extended : Extends pairs [] entries) : entries = pairs.mergeSort notAfter := by
  apply extended.ascending.eq_of_classes
    (List.pairwise_mergeSort notAfter_trans notAfter_total pairs)
  intro key
  rw [classOf_mergeSort]
  have few := distinct.length_classOf_le key
  match members : classOf key pairs, few with
  | [], _ => exact extended.untouched key members
  | [entry], _ => exact extended.added key entry entry rfl (by simp [members]) (by simp [members])

end Distinct

namespace Dictionary

variable [Footprint κ] [Footprint ν] [Std.TransOrd κ] {pairs others : List (κ × ν)}
variable {stamp : Stamp}

/-- Distinct keys that are not there yet are mapped by plain insertions. -/
theorem insertAll_eq (distinct : DistinctKeys pairs) {tree : Tree κ ν} (sound : tree.Sound)
    (absent : ∀ pair ∈ pairs, ∀ entry ∈ tree.toList, compare entry.1 pair.1 ≠ .eq)
    (state : Stamp) (count : Nat) :
    pairs.foldlM (insertCounting stamp) (count, ⟨tree, state⟩) =
      tree.insertAll pairs >>= fun after =>
        pure (count, ⟨after, if pairs.isEmpty then state else stamp⟩) := by
  induction pairs generalizing tree state with
  | nil => rfl
  | cons pair pairs inductionHypothesis =>
    obtain ⟨apart, further⟩ := List.pairwise_cons.mp distinct
    have none : tree.toList.find? (fun entry => (compare entry.1 pair.1).isEq) = none := by
      apply List.find?_eq_none.mpr
      intro entry member
      simpa using absent pair List.mem_cons_self entry member
    have admits := Tree.insertKey_admits sound pair.1 pair.2
    have unfolded : tree.insertAll (pair :: pairs) =
        tree.insertKey pair.1 pair.2 >>= fun current => current.insertAll pairs := rfl
    simp only [List.foldlM_cons, insertCounting, insert, bind_assoc, pure_bind,
      Tree.updateFirstOrInsert_absent sound pair.2 none, unfolded]
    generalize tree.insertKey pair.1 pair.2 = run at admits ⊢
    rcases run with ⟨events, cause | current⟩
    · rfl
    · have becomes := admits.of_ok rfl
      have later : ∀ pair ∈ pairs, ∀ entry ∈ current.toList, compare entry.1 pair.1 ≠ .eq := by
        intro next member entry there
        rw [becomes.listed] at there
        rcases List.eq_or_mem_of_mem_insertIdx there with rfl | held
        · exact apart next member
        · exact absent next (List.mem_cons_of_mem _ member) entry held
      simp only [Traced.answered_bind, Option.isSome_none, Bool.false_eq_true, ↓reduceIte,
        inductionHypothesis further becomes.sound later, ite_self, List.isEmpty_cons]

/-- Distinct keys make one dictionary, whichever way it is built. -/
theorem ofDistinct_eq_ofList (distinct : DistinctKeys pairs) :
    Dictionary.ofDistinct pairs stamp = Dictionary.ofList pairs stamp := by
  cases made : (Tree.empty Capacities.standard : Checked (Tree κ ν)) with
  | error cause =>
    simp only [ofDistinct, ofList, Dictionary.empty, made, Checked.error_bind, Traced.lift_error,
      Traced.refuse_bind]
  | ok start =>
    obtain ⟨sound, _, _, none⟩ := Tree.sound_of_empty made
    have mapped : pairs.foldlM (insertCounting stamp) (0, ⟨start, stamp⟩) = _ :=
      insertAll_eq distinct sound (by simp [none]) stamp 0
    simp only [ofDistinct, ofList, Dictionary.empty, insertAll, made, Checked.ok_bind,
      Checked.pure_eq, Traced.lift_ok, pure_bind, mapped, bind_assoc, ite_self]

/-- A dictionary built from distinct keys has the entries sorted stably, repeated keys
included. -/
theorem ofDistinct_sorts (pairs : List (κ × ν)) (stamp : Stamp) :
    (Capacities.standard.roomToFill κ ν pairs.length).Admits
      (Dictionary.ofDistinct pairs stamp).outcome
      (fun made => made.Answers (pairs.mergeSort notAfter)) := by
  rw [← foldl_insertStable_eq_mergeSort]
  exact (ofDistinct_admits pairs stamp).imp (fun _ _ holds => holds.answers)

/-- A dictionary built by mapping the pairs of a list has increasing keys, class by class those of
the list. -/
theorem ofList_collects (pairs : List (κ × ν)) (stamp : Stamp) :
    ∃ entries, Increasing entries ∧ Extends pairs [] entries ∧
      (Capacities.standard.roomToBuild pairs).Admits (Dictionary.ofList pairs stamp).outcome
        (fun made => made.Answers entries) :=
  ⟨putAll pairs [], Increasing.putAll List.Pairwise.nil pairs,
    putAll_extends List.Pairwise.nil pairs,
    (ofList_admits pairs stamp).imp (fun _ _ holds => holds.answers)⟩

/-- Gathering the entries of a dictionary built from distinct keys. -/
theorem ofDistinct_gathers (pairs : List (κ × ν)) (stamp : Stamp) :
    ((Dictionary.ofDistinct pairs stamp).outcome >>= Dictionary.entries) =
      (Capacities.standard.roomToFill κ ν pairs.length >>= fun _ =>
        .ok (pairs.mergeSort notAfter)) := by
  rcases ofDistinct_sorts pairs stamp with ⟨free, made, ran, answers⟩ | ⟨cause, shut, refused⟩
  · rw [ran, free]
    exact answers.gathered
  · rw [refused, shut]
    rfl

/-- What the ways of making a dictionary in bulk hold, for every list of pairs. Built from keys
taken to be distinct, it is the list sorted stably, and a key has the value of its first pair. Built
by mapping the pairs, it has one entry for each class of keys. With distinct keys the two are one
dictionary, and a permutation of the list has the same entries. Extending any dictionary, one with
repeated keys as well, replaces the first value of a class that is there and adds a single entry for
one that is not, in key order. Refusals are those of the gates, which look at numbers of entries
alone. -/
theorem bulk_isByClass :
    (∀ (pairs : List (κ × ν)) (stamp : Stamp),
      (Capacities.standard.roomToFill κ ν pairs.length).Admits
        (Dictionary.ofDistinct pairs stamp).outcome (fun made =>
          made.Answers
              (pairs.mergeSort (fun earlier later => (compare earlier.1 later.1).isLE)) ∧
            ∀ key, made.get? key = .ok (valueOf key pairs))) ∧
    (∀ (pairs : List (κ × ν)) (stamp : Stamp), ∃ entries, Increasing entries ∧
      Extends pairs [] entries ∧
      (Capacities.standard.roomToBuild pairs).Admits (Dictionary.ofList pairs stamp).outcome
        (fun made => made.Answers entries)) ∧
    (∀ (pairs : List (κ × ν)) (stamp : Stamp), DistinctKeys pairs →
      Dictionary.ofDistinct pairs stamp = Dictionary.ofList pairs stamp ∧
      (∀ entries, Extends pairs [] entries →
        entries = pairs.mergeSort (fun earlier later => (compare earlier.1 later.1).isLE)) ∧
      ∀ others : List (κ × ν), others.Perm pairs →
        ((Dictionary.ofDistinct others stamp).outcome >>= Dictionary.entries) =
          ((Dictionary.ofDistinct pairs stamp).outcome >>= Dictionary.entries) ∧
        ((Dictionary.ofList others stamp).outcome >>= Dictionary.entries) =
          ((Dictionary.ofList pairs stamp).outcome >>= Dictionary.entries)) ∧
    ∀ (capacities : Capacities) (held : Dictionary κ ν), held.tree.Reached capacities →
      ∀ (pairs : List (κ × ν)) (stamp : Stamp), ∃ entries,
        Extends pairs held.tree.toList entries ∧
        (Increasing held.tree.toList → Increasing entries) ∧
        (held.tree.roomToPut pairs).Admits (held.insertAll stamp pairs).outcome
          (fun answer => answer.2.Answers entries) := by
  refine ⟨?_, ?_, ?_, ?_⟩
  · intro pairs stamp
    apply (ofDistinct_sorts pairs stamp).imp
    rintro made _ answers
    refine ⟨answers, ?_⟩
    intro key
    rw [answers.get, valueOf_mergeSort]
  · exact ofList_collects
  · intro pairs stamp distinct
    refine ⟨ofDistinct_eq_ofList distinct, fun entries => distinct.eq_mergeSort, ?_⟩
    intro others same
    have apart : DistinctKeys others :=
      distinct.perm same.symm (fun differ sameKey => differ (Std.OrientedCmp.eq_symm sameKey))
    have gathered : ((Dictionary.ofDistinct others stamp).outcome >>= Dictionary.entries) =
        ((Dictionary.ofDistinct pairs stamp).outcome >>= Dictionary.entries) := by
      rw [ofDistinct_gathers, ofDistinct_gathers, same.length_eq, distinct.mergeSort_perm same]
    refine ⟨gathered, ?_⟩
    rwa [ofDistinct_eq_ofList distinct, ofDistinct_eq_ofList apart] at gathered
  · intro capacities held reached pairs stamp
    have sound := reached.isSound
    refine ⟨putAll pairs held.tree.toList, putAll_extends sound.ascending pairs,
      fun increasing => increasing.putAll pairs, ?_⟩
    exact (insertAll_admits pairs stamp sound 0).imp (fun answer _ holds => holds.answers)

/-- A dictionary with a key that repeats is extended by another pair with that key, and by two with
a key that it lacks. -/
theorem bulk_isByClass_repeated :
    let held : Dictionary Nat Nat :=
      ⟨⟨.leaf 470 2 [(1, 10), (1, 20)], Capacities.standard, 2⟩, ⟨0⟩⟩
    let given : List (Nat × Nat) := [(2, 30), (1, 40), (2, 50)]
    held.tree.Reached Capacities.standard ∧ ∃ answer,
      (held.insertAll ⟨1⟩ given).outcome = .ok answer ∧
        Extends given held.tree.toList [(1, 40), (1, 20), (2, 50)] ∧
        answer.2.Answers [(1, 40), (1, 20), (2, 50)] := by
  intro held given
  have built : (Dictionary.ofDistinct [(1, 10), (1, 20)] ⟨0⟩).outcome = .ok held := by cbv
  have reached := reached_of_ofDistinct built
  obtain ⟨_, _, _, extending⟩ := @bulk_isByClass Nat Nat _ _ _ _
  obtain ⟨entries, extended, _, admits⟩ := extending Capacities.standard held reached given ⟨1⟩
  have ran : (held.insertAll ⟨1⟩ given).outcome.map (fun answer => answer.2.entries) =
      .ok (.ok [(1, 40), (1, 20), (2, 50)]) := by cbv
  rcases answered : (held.insertAll ⟨1⟩ given).outcome with cause | answer
  · rw [answered] at ran
    cases ran
  · have answers := admits.of_ok answered
    rw [answered] at ran
    obtain rfl := Except.ok.inj (answers.gathered.symm.trans (Except.ok.inj ran))
    exact ⟨reached, answer, rfl, extended, answers⟩

end Dictionary

end CountedBTree
