import CountedBTree.Node.Check
import CountedBTree.Proofs.Search

/-!
# Entries in key order

A run of entries ascends when no key is less than an earlier one; equal keys may
follow each other in any number. Keys are compared by a lawful order under which
different keys can be equal, so nothing here lets equal keys be exchanged.

An order cuts an ascending run twice at a given key: once before the entries with an
equal key and once after them. The two counts `countBelow` and `countUpTo` name these
places. A new entry put at the second one keeps the run ascending, behind every entry
with an equal key.
-/

namespace CountedBTree

variable {α κ ν : Type}

/-- Putting an element at a place inside a run divides the run there. -/
theorem insertIdx_eq_take_drop (run : List α) (place : Nat) (element : α)
    (inside : place ≤ run.length) :
    run.insertIdx place element = run.take place ++ element :: run.drop place := by
  induction run generalizing place with
  | nil =>
    have zero : place = 0 := by simpa using inside
    simp [zero]
  | cons first rest inductionHypothesis =>
    cases place with
    | zero => simp
    | succ place =>
      have shorter : place ≤ rest.length := by simpa using inside
      simp [inductionHypothesis place shorter]

/-- Putting an element behind the first of two runs leaves that run alone. -/
theorem insertIdx_back (front back : List α) (place : Nat) (element : α)
    (beyond : front.length ≤ place) :
    (front ++ back).insertIdx place element =
      front ++ back.insertIdx (place - front.length) element := by
  induction front generalizing place with
  | nil => simp
  | cons first rest inductionHypothesis =>
    cases place with
    | zero => simp at beyond
    | succ place =>
      have shorter : rest.length ≤ place := by simpa using beyond
      simp [inductionHypothesis place shorter]

/-- Putting an element into the middle of three runs leaves the outer ones alone. -/
theorem insertIdx_middle (front middle back : List α) (place : Nat) (element : α)
    (inside : place ≤ middle.length) :
    (front ++ middle ++ back).insertIdx (front.length + place) element =
      front ++ middle.insertIdx place element ++ back := by
  have whole : place ≤ (middle ++ back).length := by
    simp only [List.length_append]
    omega
  rw [List.append_assoc, insertIdx_back _ _ _ _ (by omega), Nat.add_sub_cancel_left,
    insertIdx_eq_take_drop _ _ _ whole,
    insertIdx_eq_take_drop _ _ _ inside, List.take_append_of_le_length inside,
    List.drop_append_of_le_length inside]
  simp

/-- A change in the middle of three runs leaves the outer ones alone. -/
theorem set_middle (front middle back : List α) (place : Nat) (element : α)
    (inside : place < middle.length) :
    (front ++ middle ++ back).set (front.length + place) element =
      front ++ middle.set place element ++ back := by
  rw [List.append_assoc, List.set_append_right _ _ (by omega), Nat.add_sub_cancel_left,
    List.set_append_left _ _ inside, List.append_assoc]

/-- What comes before a place in the middle of three runs comes before it in all of them. -/
theorem mem_take_middle (front middle back : List α) {place : Nat} {element : α}
    (inside : place ≤ middle.length) (member : element ∈ middle.take place) :
    element ∈ (front ++ middle ++ back).take (front.length + place) := by
  rw [List.append_assoc, List.take_length_add_append, List.take_append_of_le_length inside]
  exact List.mem_append_right _ member

/-- What comes from a place in the middle of three runs on comes from it on in all of
them. -/
theorem mem_drop_middle (front middle back : List α) {place : Nat} {element : α}
    (inside : place ≤ middle.length) (member : element ∈ middle.drop place) :
    element ∈ (front ++ middle ++ back).drop (front.length + place) := by
  rw [List.append_assoc, List.drop_length_add_append, List.drop_append_of_le_length inside]
  exact List.mem_append_left _ member

/-- Another value beside the same key leaves the keys as they are. -/
theorem set_keys {entries : List (κ × ν)} {place : Nat} {key : κ} {old : ν}
    (present : entries[place]? = some (key, old)) (value : ν) :
    (entries.set place (key, value)).map Prod.fst = entries.map Prod.fst := by
  obtain ⟨inside, same⟩ := List.getElem?_eq_some_iff.mp present
  rw [List.map_set]
  refine List.ext_getElem (by simp) ?_
  intro other _ within
  by_cases here : place = other
  · subst here
    simp [same]
  · simp [here]

variable [Ord κ]

/-- No key is less than an earlier one. -/
def Ascending (entries : List (κ × ν)) : Prop :=
  entries.Pairwise (fun earlier later => (compare earlier.1 later.1).isLE = true)

/-- The number of entries with a smaller key. -/
def countBelow (key : κ) (entries : List (κ × ν)) : Nat :=
  entries.countP (fun entry => (compare entry.1 key).isLT)

/-- The number of entries whose key is not greater. -/
def countUpTo (key : κ) (entries : List (κ × ν)) : Nat :=
  entries.countP (fun entry => (compare entry.1 key).isLE)

theorem countUpTo_le_length (key : κ) (entries : List (κ × ν)) :
    countUpTo key entries ≤ entries.length := List.countP_le_length

/-- A part of an ascending run ascends. -/
theorem Ascending.of_sublist {part entries : List (κ × ν)} (ascending : Ascending entries)
    (inside : part.Sublist entries) : Ascending part :=
  List.Pairwise.sublist inside ascending

/-- The middle one of three runs that ascend together ascends. -/
theorem Ascending.middle {front middle back : List (κ × ν)}
    (ascending : Ascending (front ++ middle ++ back)) : Ascending middle :=
  ascending.of_sublist ((List.sublist_append_right _ _).trans (List.sublist_append_left _ _))

/-- Whether a run ascends depends on its keys alone. -/
theorem Ascending.of_keys {entries changed : List (κ × ν)} (ascending : Ascending entries)
    (same : changed.map Prod.fst = entries.map Prod.fst) : Ascending changed := by
  have keys : (entries.map Prod.fst).Pairwise
      (fun earlier later : κ => (compare earlier later).isLE = true) :=
    List.pairwise_map.mpr ascending
  rw [← same] at keys
  exact List.pairwise_map.mp keys

variable [Std.TransOrd κ]

/-- The entries with a smaller key come first in an ascending run. -/
theorem Ascending.cut_below {entries : List (κ × ν)} (ascending : Ascending entries)
    (key : κ) : Cut (fun entry => (compare entry.1 key).isLT) entries := by
  refine List.Pairwise.imp ?_ ascending
  intro earlier later ordered less
  have laterLess : compare later.1 key = .lt := by simpa using less
  simp [Std.TransCmp.lt_of_isLE_of_lt ordered laterLess]

/-- The entries whose key is not greater come first in an ascending run. -/
theorem Ascending.cut_upTo {entries : List (κ × ν)} (ascending : Ascending entries)
    (key : κ) : Cut (fun entry => (compare entry.1 key).isLE) entries := by
  refine List.Pairwise.imp ?_ ascending
  intro earlier later ordered laterWithin
  exact Std.TransCmp.isLE_trans ordered laterWithin

/-- The first slot of a key in an ascending node has the smaller keys before it. -/
theorem firstSlot_eq_countBelow {entries : List (κ × ν)} (ascending : Ascending entries)
    (key : κ) : firstSlot key entries = countBelow key entries :=
  partitionPoint_eq_countP _ _ (ascending.cut_below key)

/-- Nothing in an ascending run is less than the key from the first such entry on. -/
theorem Ascending.not_less {entries : List (κ × ν)} (ascending : Ascending entries) (key : κ) :
    ∀ entry ∈ entries.drop (countBelow key entries), (compare entry.1 key).isLT = false :=
  (ascending.cut_below key).drop_countP

/-- Nothing in an ascending run is greater than the key before the gap of the key. -/
theorem Ascending.not_greater {entries : List (κ × ν)} (ascending : Ascending entries)
    (key : κ) :
    ∀ entry ∈ entries.take (countUpTo key entries), (compare entry.1 key).isLE = true :=
  (ascending.cut_upTo key).take_countP

/-- Everything in an ascending run is greater than the key from the gap of the key on. -/
theorem Ascending.greater {entries : List (κ × ν)} (ascending : Ascending entries) (key : κ) :
    ∀ entry ∈ entries.drop (countUpTo key entries), compare entry.1 key = .gt := by
  intro entry member
  simpa using (ascending.cut_upTo key).drop_countP entry member

/-- An entry that is not less than a key and not equal to it is followed by greater keys
only. -/
theorem no_equal_behind {first later : κ × ν} {key : κ}
    (ordered : (compare first.1 later.1).isLE = true)
    (notLess : (compare first.1 key).isLT = false) (notEqual : (compare first.1 key).isEq = false) :
    (compare later.1 key).isEq = false := by
  cases answer : compare later.1 key with
  | eq =>
    rw [Std.TransCmp.congr_right answer] at ordered
    cases order : compare first.1 key <;> simp [order] at ordered notLess notEqual
  | lt => rfl
  | gt => rfl

/-- An entry between an equal one and one that is not greater is equal as well. -/
theorem equal_between {first later : κ × ν} {key : κ}
    (ordered : (compare first.1 later.1).isLE = true) (sameKey : compare first.1 key = .eq)
    (notGreater : (compare later.1 key).isLE = true) : compare later.1 key = .eq := by
  rw [Std.TransCmp.congr_left sameKey] at ordered
  exact Std.OrientedCmp.isLE_antisymm notGreater ordered

/-- The first equal entry of an ascending run is the one behind all smaller keys. -/
theorem Ascending.entryEqualTo_eq_find {entries : List (κ × ν)} (ascending : Ascending entries)
    (key : κ) :
    entryEqualTo key entries (countBelow key entries) =
      entries.find? (fun entry => (compare entry.1 key).isEq) := by
  have smaller := (ascending.cut_below key).take_countP
  have others := ascending.not_less key
  have passed : (entries.take (countBelow key entries)).find?
      (fun entry => (compare entry.1 key).isEq) = none := by
    refine List.find?_eq_none.mpr ?_
    intro entry member
    have less : compare entry.1 key = .lt := by simpa using smaller entry member
    simp [less]
  have whole : entries.find? (fun entry => (compare entry.1 key).isEq) =
      (entries.drop (countBelow key entries)).find?
        (fun entry => (compare entry.1 key).isEq) := by
    conv => lhs; rw [← List.take_append_drop (countBelow key entries) entries]
    rw [List.find?_append, passed, Option.none_or]
  have ordered : Ascending (entries.drop (countBelow key entries)) :=
    ascending.of_sublist (List.drop_sublist _ _)
  rw [whole, entryEqualTo, ← List.head?_drop]
  cases split : entries.drop (countBelow key entries) with
  | nil => rfl
  | cons first rest =>
    rw [split] at others ordered
    cases equal : (compare first.1 key).isEq with
    | true => simp [equal]
    | false =>
      have none : rest.find? (fun entry => (compare entry.1 key).isEq) = none := by
        refine List.find?_eq_none.mpr ?_
        intro entry member
        have apart := no_equal_behind ((List.pairwise_cons.mp ordered).1 entry member)
          (others first List.mem_cons_self) equal
        simp [apart]
      simp only [List.head?_cons, Option.filter_some, equal, List.find?_cons, none]
      rfl

/-- A new entry behind all keys not greater keeps a run ascending. -/
theorem Ascending.insert_upTo {entries : List (κ × ν)} (ascending : Ascending entries)
    (key : κ) (value : ν) :
    Ascending (entries.insertIdx (countUpTo key entries) (key, value)) := by
  have before := ascending.not_greater key
  have behind := ascending.greater key
  rw [insertIdx_eq_take_drop _ _ _ (countUpTo_le_length key entries)]
  refine List.pairwise_append.mpr ⟨?_, ?_, ?_⟩
  · exact ascending.of_sublist (List.take_sublist _ _)
  · refine List.pairwise_cons.mpr ⟨?_, ascending.of_sublist (List.drop_sublist _ _)⟩
    intro entry member
    simp [Std.OrientedCmp.lt_of_gt (behind entry member)]
  · intro earlier early later late
    rcases List.mem_cons.mp late with rfl | late
    · exact before earlier early
    · have split := List.take_append_drop (countUpTo key entries) entries
      have crossing : ∀ first ∈ entries.take (countUpTo key entries),
          ∀ second ∈ entries.drop (countUpTo key entries),
            (compare first.1 second.1).isLE = true :=
        (List.pairwise_append.mp (split.symm ▸ ascending)).2.2
      exact crossing earlier early later late

/-- The test a node makes of its own entries decides whether they ascend. Looking at
neighbours is enough because the order is transitive. -/
theorem ascending_iff (entries : List (κ × ν)) :
    Node.ascending entries = true ↔ Ascending entries := by
  induction entries with
  | nil => simp [Node.ascending, Ascending]
  | cons first rest inductionHypothesis =>
    cases rest with
    | nil => simp [Node.ascending, Ascending]
    | cons second rest =>
      rw [Node.ascending, Bool.and_eq_true, inductionHypothesis]
      constructor
      · rintro ⟨ordered, ascending⟩
        refine List.pairwise_cons.mpr ⟨?_, ascending⟩
        intro entry member
        rcases List.mem_cons.mp member with rfl | member
        · exact ordered
        · have further : (compare second.1 entry.1).isLE = true :=
            (List.pairwise_cons.mp ascending).1 entry member
          exact Std.TransCmp.isLE_trans ordered further
      · intro ascending
        obtain ⟨ordered, tail⟩ := List.pairwise_cons.mp ascending
        exact ⟨ordered second List.mem_cons_self, tail⟩

end CountedBTree
