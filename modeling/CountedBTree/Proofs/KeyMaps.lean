import CountedBTree.Proofs.DictionaryWrites

/-!
# Lists as ordered maps

A list of entries in strictly increasing key order is a map: a key is found at most once.
Mapping a key walks along the list to the place of the key. There it replaces the value, and
leaves the key as it was first spelled, or else puts the entry in between. Changing a value
does the same where the key is found and nothing where it is not.

The writes to a tree are described by offsets. On such lists they come to the same thing.
-/

namespace CountedBTree

variable {κ ν : Type} [Ord κ]

/-- Every key is less than the next one, so no key is there twice. -/
def Increasing (entries : List (κ × ν)) : Prop :=
  entries.Pairwise (fun earlier later => compare earlier.1 later.1 = .lt)

/-- Map a key in a list with increasing keys. An equal key keeps its spelling. -/
def put (key : κ) (value : ν) : List (κ × ν) → List (κ × ν)
  | [] => [(key, value)]
  | entry :: rest =>
      match compare entry.1 key with
      | .lt => entry :: put key value rest
      | .eq => (entry.1, value) :: rest
      | .gt => (key, value) :: entry :: rest

/-- Apply a function to the value of a key, if it is there. -/
def changeValue (key : κ) (change : ν → ν) : List (κ × ν) → List (κ × ν)
  | [] => []
  | entry :: rest =>
      match compare entry.1 key with
      | .eq => (entry.1, change entry.2) :: rest
      | _ => entry :: changeValue key change rest

/-- Map several keys, one after the other. -/
def putEach (pairs entries : List (κ × ν)) : List (κ × ν) :=
  pairs.foldl (fun sofar pair => put pair.1 pair.2 sofar) entries

/-- Increasing keys ascend. -/
theorem Increasing.ascending {entries : List (κ × ν)} (increasing : Increasing entries) :
    Ascending entries :=
  increasing.imp (fun less => by simp [less])

/-- Whether keys increase depends on the keys alone. -/
theorem Increasing.of_keys {entries changed : List (κ × ν)} (increasing : Increasing entries)
    (same : changed.map Prod.fst = entries.map Prod.fst) : Increasing changed := by
  have keys : (entries.map Prod.fst).Pairwise
      (fun earlier later : κ => compare earlier later = .lt) :=
    List.pairwise_map.mpr increasing
  rw [← same] at keys
  exact List.pairwise_map.mp keys

/-- Changing a value leaves all keys as they are spelled. -/
theorem changeValue_keys (key : κ) (change : ν → ν) (entries : List (κ × ν)) :
    (changeValue key change entries).map Prod.fst = entries.map Prod.fst := by
  induction entries with
  | nil => rfl
  | cons entry rest inductionHypothesis =>
    simp only [changeValue]
    split
    · rfl
    · simp [inductionHypothesis]

/-- Without the key nothing is changed. -/
theorem changeValue_absent {key : κ} (change : ν → ν) {entries : List (κ × ν)}
    (absent : valueOf key entries = none) : changeValue key change entries = entries := by
  induction entries with
  | nil => rfl
  | cons entry rest inductionHypothesis =>
    cases order : compare entry.1 key with
    | eq => simp [valueOf, order] at absent
    | lt =>
      have further : valueOf key rest = none := by simpa [valueOf, order] using absent
      simp [changeValue, order, inductionHypothesis further]
    | gt =>
      have further : valueOf key rest = none := by simpa [valueOf, order] using absent
      simp [changeValue, order, inductionHypothesis further]

variable {entry : κ × ν} {entries rest : List (κ × ν)} {key : κ}

/-- A key in a list after mapping a key is that one or was there. -/
theorem key_of_mem_put {value : ν} (member : entry ∈ put key value entries) :
    entry.1 = key ∨ ∃ earlier ∈ entries, entry.1 = earlier.1 := by
  induction entries with
  | nil => exact .inl (by simpa using congrArg Prod.fst (List.mem_singleton.mp member))
  | cons first rest inductionHypothesis =>
    cases order : compare first.1 key with
    | lt =>
      simp only [put, order, List.mem_cons] at member
      rcases member with rfl | member
      · exact .inr ⟨entry, List.mem_cons_self, rfl⟩
      · rcases inductionHypothesis member with same | ⟨earlier, there, same⟩
        · exact .inl same
        · exact .inr ⟨earlier, List.mem_cons_of_mem _ there, same⟩
    | eq =>
      simp only [put, order, List.mem_cons] at member
      rcases member with rfl | member
      · exact .inr ⟨first, List.mem_cons_self, rfl⟩
      · exact .inr ⟨entry, List.mem_cons_of_mem _ member, rfl⟩
    | gt =>
      simp only [put, order, List.mem_cons] at member
      rcases member with rfl | rfl | member
      · exact .inl rfl
      · exact .inr ⟨entry, List.mem_cons_self, rfl⟩
      · exact .inr ⟨entry, List.mem_cons_of_mem _ member, rfl⟩

variable [Std.TransOrd κ]

/-- Every key behind one that is not less than a given key is greater than it. -/
theorem Increasing.greater_behind (increasing : Increasing (entry :: rest))
    (notLess : (compare key entry.1).isLE = true) :
    ∀ later ∈ rest, compare later.1 key = .gt := by
  intro later member
  have ordered := (List.pairwise_cons.mp increasing).1 later member
  exact Std.OrientedCmp.gt_of_lt (Std.TransCmp.lt_of_isLE_of_lt notLess ordered)

/-- Behind a key that is not less than a given key nothing equal is found. -/
theorem Increasing.find_behind (increasing : Increasing (entry :: rest))
    (notLess : (compare key entry.1).isLE = true) :
    rest.find? (fun later => (compare later.1 key).isEq) = none := by
  apply List.find?_eq_none.mpr
  intro later member
  simp [increasing.greater_behind notLess later member]

/-- No key is less than a given key if the first one is not. -/
theorem Increasing.countBelow_eq_zero (increasing : Increasing (entry :: rest))
    (notLess : (compare key entry.1).isLE = true) : countBelow key (entry :: rest) = 0 := by
  apply List.countP_eq_zero.mpr
  intro later member
  rcases List.mem_cons.mp member with rfl | member
  · cases order : compare later.1 key with
    | lt => simp [Std.OrientedCmp.gt_of_lt order] at notLess
    | eq => simp
    | gt => simp
  · simp [increasing.greater_behind notLess later member]

/-- Every key is greater than a given key if the first one is. -/
theorem Increasing.countUpTo_eq_zero (increasing : Increasing (entry :: rest))
    (less : compare key entry.1 = .lt) : countUpTo key (entry :: rest) = 0 := by
  apply List.countP_eq_zero.mpr
  intro later member
  rcases List.mem_cons.mp member with rfl | member
  · simp [Std.OrientedCmp.gt_of_lt less]
  · have notLess : (compare key entry.1).isLE = true := by simp [less]
    simp [increasing.greater_behind notLess later member]

/-- On increasing keys, mapping a key by offsets comes to walking to its place. -/
theorem Increasing.putFirst_eq_put (increasing : Increasing entries) (key : κ) (value : ν) :
    putFirst key value entries = put key value entries := by
  induction entries with
  | nil => rfl
  | cons entry rest inductionHypothesis =>
    have further := inductionHypothesis (List.pairwise_cons.mp increasing).2
    cases order : compare entry.1 key with
    | lt =>
      have below : countBelow key (entry :: rest) = countBelow key rest + 1 := by
        simp [countBelow, order]
      have upTo : countUpTo key (entry :: rest) = countUpTo key rest + 1 := by
        simp [countUpTo, order]
      have later : (entry :: rest).find? (fun entry => (compare entry.1 key).isEq) =
          rest.find? (fun entry => (compare entry.1 key).isEq) := by
        simp [order]
      rw [put, order, ← further, putFirst, later, below, upTo, putFirst]
      split <;> rfl
    | eq =>
      have zero := increasing.countBelow_eq_zero
        (by simp [Std.OrientedCmp.eq_symm order] : (compare key entry.1).isLE = true)
      simp [putFirst, put, order, zero]
    | gt =>
      have less := Std.OrientedCmp.lt_of_gt order
      have zero := increasing.countUpTo_eq_zero less
      have absent := increasing.find_behind (by simp [less] : (compare key entry.1).isLE = true)
      simp [putFirst, put, order, zero, absent]

/-- Mapping a key keeps keys increasing. -/
theorem Increasing.put (increasing : Increasing entries) (key : κ) (value : ν) :
    Increasing (put key value entries) := by
  induction entries with
  | nil => exact List.pairwise_singleton _ _
  | cons entry rest inductionHypothesis =>
    obtain ⟨ordered, tail⟩ := List.pairwise_cons.mp increasing
    cases order : compare entry.1 key with
    | lt =>
      simp only [CountedBTree.put, order]
      refine List.pairwise_cons.mpr ⟨?_, inductionHypothesis tail⟩
      intro later member
      rcases key_of_mem_put member with same | ⟨earlier, there, same⟩
      · exact same ▸ order
      · exact same ▸ ordered earlier there
    | eq =>
      simp only [CountedBTree.put, order]
      exact increasing.of_keys rfl
    | gt =>
      simp only [CountedBTree.put, order]
      have less := Std.OrientedCmp.lt_of_gt order
      refine List.pairwise_cons.mpr ⟨?_, increasing⟩
      intro later member
      rcases List.mem_cons.mp member with rfl | member
      · exact less
      · exact Std.TransCmp.lt_trans less (ordered later member)

/-- Mapping several keys keeps keys increasing, and by offsets comes to the same. -/
theorem Increasing.putAll_eq_putEach (increasing : Increasing entries)
    (pairs : List (κ × ν)) :
    putAll pairs entries = putEach pairs entries ∧ Increasing (putEach pairs entries) := by
  induction pairs generalizing entries with
  | nil => exact ⟨rfl, increasing⟩
  | cons pair pairs inductionHypothesis =>
    simp only [putAll, putEach, List.foldl_cons, increasing.putFirst_eq_put]
    exact inductionHypothesis (increasing.put pair.1 pair.2)

/-- On increasing keys, changing the first equal entry by its offset changes the value of
its key. -/
theorem Increasing.set_eq_changeValue (increasing : Increasing entries) (change : ν → ν)
    (first : entries.find? (fun later => (compare later.1 key).isEq) = some entry) :
    entries.set (countBelow key entries) (entry.1, change entry.2) =
      changeValue key change entries := by
  induction entries with
  | nil => simp at first
  | cons head rest inductionHypothesis =>
    cases order : compare head.1 key with
    | lt =>
      have below : countBelow key (head :: rest) = countBelow key rest + 1 := by
        simp [countBelow, order]
      have further : rest.find? (fun later => (compare later.1 key).isEq) = some entry := by
        simpa [order] using first
      rw [below, List.set_cons_succ,
        inductionHypothesis (List.pairwise_cons.mp increasing).2 further]
      simp [changeValue, order]
    | eq =>
      have zero := increasing.countBelow_eq_zero
        (by simp [Std.OrientedCmp.eq_symm order] : (compare key head.1).isLE = true)
      obtain rfl : head = entry := by simpa [order] using first
      simp [changeValue, order, zero]
    | gt =>
      have less := Std.OrientedCmp.lt_of_gt order
      have absent := increasing.find_behind (by simp [less] : (compare key head.1).isLE = true)
      simp [order, absent] at first

/-- On increasing keys, the entry at an offset is the one found under its key, and replacing
its value there changes the value of its key. -/
theorem Increasing.set_at (increasing : Increasing entries) {offset : Nat} {old : ν}
    (present : entries[offset]? = some (key, old)) (value : ν) :
    valueOf key entries = some old ∧
      entries.set offset (key, value) = changeValue key (fun _ => value) entries := by
  induction entries generalizing offset with
  | nil => simp at present
  | cons head rest inductionHypothesis =>
    obtain ⟨ordered, tail⟩ := List.pairwise_cons.mp increasing
    cases offset with
    | zero =>
      obtain rfl : head = (key, old) := by simpa using present
      simp [valueOf, changeValue, Std.ReflCmp.compare_self]
    | succ offset =>
      have there : rest[offset]? = some (key, old) := by simpa using present
      have less : compare head.1 key = .lt := ordered _ (List.mem_of_getElem? there)
      obtain ⟨found, changed⟩ := inductionHypothesis tail there
      constructor
      · simpa [valueOf, less] using found
      · simp [changeValue, less, changed]

end CountedBTree
