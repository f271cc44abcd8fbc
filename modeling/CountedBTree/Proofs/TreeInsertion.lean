import CountedBTree.Proofs.Limits
import CountedBTree.Proofs.TrailInsertion
import CountedBTree.Proofs.TrailUpdate

/-!
# Insertion into a tree

A sound tree has a root in shape, entries in key order, and no more entries than writes, the
number of which is a machine word. Its root is a single leaf unless branches of the capacity
asked for can be made. Inserting into a sound tree makes a sound tree again whose entries are
the old ones with one more in its place, or with one value replaced. The internal checks of
the insertion pass at every node on the way, and so do the sums of counts, as no count exceeds
the generation.

What can stop an insertion is what the gate of the write looks at. Whether a branch can be
made matters at one moment only, when the root is a leaf and has to split. It has then as many
entries as a leaf has room for, and a root that is a branch shows that branches can be made.
-/

namespace CountedBTree

variable {κ ν : Type}

/-- What holds of every tree that writes lead to. -/
structure Tree.Sound [Ord κ] [Footprint κ] [Footprint ν] (tree : Tree κ ν) : Prop where
  leafRoom : 2 ≤ tree.capacities.leaf
  branchRoom : 2 ≤ tree.capacities.branch
  leafFits : checkLeafCapacity κ ν tree.capacities.leaf = .ok ()
  branchFits : tree.root.isLeaf = true ∨ checkBranchCapacity κ ν tree.capacities.branch = .ok ()
  shaped : ∃ height, Node.Shaped tree.capacities height tree.root
  ascending : Ascending tree.toList
  counted : tree.size ≤ tree.generation
  written : tree.generation < Fault.wordLimit

/-- A sound tree with the given entries, one write after another tree. -/
structure Tree.Becomes [Ord κ] [Footprint κ] [Footprint ν] (tree : Tree κ ν)
    (contents : List (κ × ν)) (after : Tree κ ν) : Prop where
  sound : after.Sound
  capacities_eq : after.capacities = tree.capacities
  generation_eq : after.generation = tree.generation + 1
  listed : after.toList = contents

/-- A sound tree with the given entries, one write after another tree, that differs from it in
values only. -/
structure Tree.Revalues [Ord κ] [Footprint κ] [Footprint ν] (tree : Tree κ ν)
    (contents : List (κ × ν)) (after : Tree κ ν) : Prop extends tree.Becomes contents after where
  outline_eq : after.root.outline = tree.root.outline
  height_eq : after.height = tree.height

/-- The number of entries of a sound tree is a machine word. -/
theorem Tree.Sound.small [Ord κ] [Footprint κ] [Footprint ν] {tree : Tree κ ν}
    (sound : tree.Sound) : tree.size < Fault.wordLimit :=
  Nat.lt_of_le_of_lt sound.counted sound.written

/-- The size of a sound tree is the number of entries it lists. -/
theorem Tree.size_eq [Ord κ] [Footprint κ] [Footprint ν] {tree : Tree κ ν} (sound : tree.Sound) :
    tree.size = tree.toList.length := by
  obtain ⟨_, shaped⟩ := sound.shaped
  exact shaped.total_eq

/-- A write can be counted as long as the next generation is a machine word. -/
theorem Tree.checkGeneration_eq (tree : Tree κ ν) : tree.checkGeneration =
    if tree.generation + 1 < Fault.wordLimit then .ok () else .error .sumTooLarge := by
  by_cases counted : tree.generation + 1 < Fault.wordLimit <;>
    simp [checkGeneration, checkedSum, counted]

namespace Node

/-- A node in shape is a leaf at height zero, and a branch above that. -/
theorem Shaped.isLeaf_iff {capacities : Capacities} {height : Nat} {node : Node κ ν}
    (shaped : Shaped capacities height node) : node.isLeaf = true ↔ height = 0 := by
  cases shaped <;> simp [isLeaf]

/-- A leaf in shape counts its own entries, of which there are no more than it has room
for. -/
theorem Shaped.total_of_leaf {capacities : Capacities} {height : Nat} {node : Node κ ν}
    (shaped : Shaped capacities height node) (alone : node.isLeaf = true) :
    node.total = node.size ∧ node.size ≤ capacities.leaf := by
  cases shaped with
  | leaf fits counted => exact ⟨counted, fits⟩
  | branch => contradiction

/-- The levels of a node in shape are one more than its height. -/
theorem Shaped.height_eq {capacities : Capacities} {height : Nat} {node : Node κ ν}
    (shaped : Shaped capacities height node) : node.height = .ok (height + 1) := by
  have levels : ∃ trail, node.descend (fun _ => 0) = .ok trail ∧
      trail.length = height + 1 := by
    induction shaped with
    | leaf fits counted => exact ⟨_, rfl, rfl⟩
    | @branch height total entries children fits separated arity counted shaped filled
        inductionHypothesis =>
      have found : children[0]? = some children[0] := List.getElem?_eq_getElem (by omega)
      obtain ⟨rest, descended, deep⟩ := inductionHypothesis _ (List.mem_of_getElem? found)
      exact ⟨⟨.branch capacities.branch total entries children, 0⟩ :: rest,
        by simp [descend, descendInto_eq _ _ _ _ found, descended], by simp [deep]⟩
  obtain ⟨trail, descended, deep⟩ := levels
  simp [Node.height, descended, deep]

end Node

namespace Tree

section Gates

variable [Footprint κ] [Footprint ν] {tree : Tree κ ν} {count : Nat}

/-- A write that cannot be counted has a shut gate. -/
theorem roomFor_exhausted (exhausted : ¬ tree.generation + 1 < Fault.wordLimit) (count : Nat) :
    tree.roomFor count = .error .sumTooLarge := by
  simp [roomFor, Capacities.roomFor, checkedSum, exhausted]

/-- A write that can be counted has an open gate if it leaves no more entries than a leaf has
room for, and otherwise that of a branch. -/
theorem roomFor_counted (counted : tree.generation + 1 < Fault.wordLimit) (count : Nat) :
    tree.roomFor count = if count ≤ tree.capacities.leaf then .ok ()
      else checkBranchCapacity κ ν tree.capacities.branch := by
  simp [roomFor, Capacities.roomFor, checkedSum, counted]

variable [Ord κ]

/-- A write that adds no entry is refused only if it cannot be counted. -/
theorem Sound.roomFor_size (sound : tree.Sound) :
    tree.roomFor tree.size = tree.checkGeneration := by
  rw [checkGeneration_eq]
  by_cases counted : tree.generation + 1 < Fault.wordLimit
  · rw [roomFor_counted counted, if_pos counted]
    rcases sound.branchFits with alone | fits
    · obtain ⟨height, shaped⟩ := sound.shaped
      obtain ⟨same, fits⟩ := shaped.total_of_leaf alone
      rw [if_pos (show tree.size ≤ tree.capacities.leaf from Nat.le_trans (Nat.le_of_eq same) fits)]
    · rw [fits, ite_self]
  · rw [roomFor_exhausted counted, if_neg counted]

end Gates

variable [Ord κ] [Footprint κ] [Footprint ν] {tree : Tree κ ν}

/-- A root in shape that lists some entries in order makes a sound tree of them. -/
theorem written_becomes (sound : tree.Sound) (counted : tree.generation + 1 < Fault.wordLimit)
    {height : Nat} {root : Node κ ν} {contents : List (κ × ν)}
    (shaped : Node.Shaped tree.capacities height root) (listed : root.toList = contents)
    (branchFits : root.isLeaf = true ∨ checkBranchCapacity κ ν tree.capacities.branch = .ok ())
    (ascending : Ascending contents) (most : contents.length ≤ tree.size + 1) :
    tree.Becomes contents (tree.written root) := by
  subst listed
  have total : (tree.written root).size = root.toList.length := shaped.total_eq
  have held := sound.counted
  refine ⟨⟨sound.leafRoom, sound.branchRoom, sound.leafFits, branchFits, ⟨height, shaped⟩,
    ascending, ?_, counted⟩, rfl, rfl, rfl⟩
  change (tree.written root).size ≤ tree.generation + 1
  omega

/-- The two halves of a root that split become the children of a new root, unless a branch
may not have the capacity asked for. -/
theorem grow_admits (sound : tree.Sound) (counted : tree.generation + 1 < Fault.wordLimit)
    {height size : Nat} {left right : Node κ ν} {median : κ × ν} {contents : List (κ × ν)}
    (leaves : (Insertion.split left median right).Leaves tree.capacities height size contents)
    (ascending : Ascending contents) (most : contents.length ≤ tree.size + 1) :
    (checkBranchCapacity κ ν tree.capacities.branch).Admits
      (tree.grow left median right).outcome (tree.Becomes contents) := by
  obtain ⟨leftShaped, leftFilled, rightShaped, rightFilled, listed, _⟩ := leaves
  cases fits : checkBranchCapacity κ ν tree.capacities.branch with
  | error cause => exact .inr ⟨cause, rfl, by simp [Tree.grow, Node.join, fits]⟩
  | ok =>
    have total : left.total + right.total + 1 = contents.length := by
      rw [leftShaped.total_eq, rightShaped.total_eq, ← listed]
      simp only [List.length_append, List.length_cons]
      omega
    have held := sound.counted
    have summed : left.total + right.total + 1 < Fault.wordLimit := by omega
    have woven : weave (Node.toLists [left, right]) [median] = contents := by
      simp [Node.toLists, weave, listed]
    have branchRoom := sound.branchRoom
    have rootShaped : Node.Shaped tree.capacities (height + 1)
        (.branch tree.capacities.branch (left.total + right.total + 1) [median]
          [left, right]) := by
      refine .branch ?_ Nat.one_pos rfl (woven ▸ total) ?_ ?_
      · simp only [List.length_singleton]
        omega
      · simpa using ⟨leftShaped, rightShaped⟩
      · simpa using ⟨leftFilled, rightFilled⟩
    have joined : Node.join left median right tree.capacities.branch =
        .ok (.branch tree.capacities.branch (left.total + right.total + 1) [median]
          [left, right]) := by
      simp [Node.join, fits, checkedSum, summed]
    have levels := rootShaped.height_eq
    refine .of_open ?_ (written_becomes sound counted rootShaped woven (.inr fits) ascending most)
    simp [Tree.grow, joined, Tree.height, Tree.written, levels]
    rfl

/-- What an upshot makes of the whole tree, growing it if the root itself split. A root that
stays one node makes no difference to the gate, and a leaf only splits when it is full. -/
theorem upshot_admits (sound : tree.Sound) (counted : tree.generation + 1 < Fault.wordLimit)
    {height : Nat} {upshot : Upshot κ ν} {contents : List (κ × ν)}
    (shaped : Node.Shaped tree.capacities height tree.root)
    (leaves : upshot.Leaves tree.capacities height tree.root.size contents)
    (ascending : Ascending contents) (more : contents.length = tree.size + 1) :
    (∃ root, upshot = .inserted root ∧ tree.roomFor (tree.size + 1) = .ok () ∧
        tree.Becomes contents (tree.written root)) ∨
      ∃ left median right, upshot = .split left median right ∧
        (tree.roomFor (tree.size + 1)).Admits (tree.grow left median right).outcome
          (tree.Becomes contents) := by
  rw [roomFor_counted counted]
  cases upshot with
  | inserted root =>
    obtain ⟨rootShaped, listed, _⟩ := leaves
    have kind : root.isLeaf = true ↔ tree.root.isLeaf = true :=
      rootShaped.isLeaf_iff.trans shaped.isLeaf_iff.symm
    have becomes := written_becomes sound counted rootShaped listed
      (sound.branchFits.imp_left kind.mpr) ascending (Nat.le_of_eq more)
    refine .inl ⟨root, rfl, ?_, becomes⟩
    rcases sound.branchFits with alone | fits
    · obtain ⟨same, room⟩ := rootShaped.total_of_leaf (kind.mpr alone)
      rw [← same, rootShaped.total_eq, listed, more] at room
      rw [if_pos room]
    · rw [fits, ite_self]
  | split left median right =>
    have grown := grow_admits sound counted leaves ascending (Nat.le_of_eq more)
    refine .inr ⟨left, median, right, rfl, ?_⟩
    rcases sound.branchFits with alone | fits
    · obtain ⟨leftShaped, _, _, _, _, full⟩ := leaves
      have crowded : ¬ tree.size + 1 ≤ tree.capacities.leaf := by
        have same : tree.size = tree.root.size := (shaped.total_of_leaf alone).1
        obtain rfl := shaped.isLeaf_iff.mp alone
        cases leftShaped with
        | leaf =>
          simp only [Node.capacity] at full
          omega
      rwa [if_neg crowded]
    · rw [fits] at grown
      rwa [fits, ite_self]
  | replaced changed old => exact leaves.elim
  | deferred => exact leaves.elim

/-- A plain insertion that cannot be counted is refused for that. -/
theorem insertKey_exhausted (exhausted : ¬ tree.generation + 1 < Fault.wordLimit) (key : κ)
    (value : ν) : tree.insertKey key value = Traced.refuse .sumTooLarge := by
  rw [insertKey, checkGeneration_eq, if_neg exhausted, Traced.lift_error, Traced.refuse_bind]

/-- An updating insertion that cannot be counted is refused for that. -/
theorem insertOrUpdate_exhausted (exhausted : ¬ tree.generation + 1 < Fault.wordLimit) (key : κ)
    (value : ν) : tree.insertOrUpdate key value = Traced.refuse .sumTooLarge := by
  rw [insertOrUpdate, checkGeneration_eq, if_neg exhausted, Traced.lift_error, Traced.refuse_bind]

/-- The entries with one more in its place are one more. -/
theorem length_inserted (sound : tree.Sound) (key : κ) (value : ν) :
    (tree.toList.insertIdx (countUpTo key tree.toList) (key, value)).length = tree.size + 1 := by
  rw [List.length_insertIdx_of_le_length (countUpTo_le_length key tree.toList), size_eq sound]

/-- A value changed beside its key makes a sound tree that differs in that value only. -/
theorem rewritten_revalues (sound : tree.Sound) (counted : tree.generation + 1 < Fault.wordLimit)
    {height offset : Nat} {key : κ} {old new : ν} {root : Node κ ν}
    (shaped : Node.Shaped tree.capacities height tree.root)
    (present : tree.toList[offset]? = some (key, old))
    (rewritten : Node.Rewritten tree.capacities height tree.root offset (key, new) root) :
    tree.Revalues (tree.toList.set offset (key, new)) (tree.written root) := by
  have kind : root.isLeaf = true ↔ tree.root.isLeaf = true :=
    rewritten.shaped.isLeaf_iff.trans shaped.isLeaf_iff.symm
  have most : (tree.toList.set offset (key, new)).length ≤ tree.size + 1 := by
    rw [List.length_set, size_eq sound]
    exact Nat.le_succ _
  refine ⟨written_becomes sound counted rewritten.shaped rewritten.listed
    (sound.branchFits.imp_left kind.mpr) (sound.ascending.of_keys (set_keys present new)) most,
    rewritten.outline_eq, ?_⟩
  exact rewritten.shaped.height_eq.trans shaped.height_eq.symm

variable [Std.TransOrd κ]

/-- The descent of an insertion enters the gap behind all keys not greater. -/
theorem descendAfter_enters (sound : tree.Sound) (key : κ) :
    ∃ trail, tree.descendAfter key = .ok trail ∧
      Trail.Enters tree.root trail (countUpTo key tree.toList) := by
  obtain ⟨height, shaped⟩ := sound.shaped
  exact Node.descend_enters shaped _ _ (fun _ => rfl) (sound.ascending.cut_upTo key)

/-- A plain insertion that can be counted is what the way down hands up. -/
theorem insertKey_leaves (sound : tree.Sound) (counted : tree.generation + 1 < Fault.wordLimit)
    (key : κ) (value : ν) :
    ∃ trail events upshot height, tree.descendAfter key = .ok trail ∧
      Trail.Enters tree.root trail (countUpTo key tree.toList) ∧
      trail.insert key value false false = ⟨events, .ok upshot⟩ ∧
      Node.Shaped tree.capacities height tree.root ∧
      upshot.Leaves tree.capacities height tree.root.size
        (tree.toList.insertIdx (countUpTo key tree.toList) (key, value)) := by
  obtain ⟨trail, descended, enters⟩ := descendAfter_enters sound key
  obtain ⟨height, shaped⟩ := sound.shaped
  have held := sound.counted
  obtain ⟨events, upshot, run, leaves⟩ := Trail.insert_leaves enters shaped sound.leafRoom
    sound.branchRoom (show tree.size + 1 < _ by omega) key value
    (sound.ascending.insert_upTo key value)
  exact ⟨trail, events, upshot, height, descended, enters, run, shaped, leaves⟩

/-- A plain insertion puts the entry behind all keys not greater, where there is room for it. -/
theorem insertKey_admits (sound : tree.Sound) (key : κ) (value : ν) :
    (tree.roomFor (tree.size + 1)).Admits (tree.insertKey key value).outcome (tree.Becomes
      (tree.toList.insertIdx (countUpTo key tree.toList) (key, value))) := by
  by_cases counted : tree.generation + 1 < Fault.wordLimit
  · obtain ⟨trail, events, upshot, height, descended, enters, run, shaped, leaves⟩ :=
      insertKey_leaves sound counted key value
    simp only [insertKey, checkGeneration_eq, if_pos counted, descended, run, Traced.lift_ok,
      pure_bind, Traced.answered_bind]
    rcases upshot_admits sound counted shaped leaves (sound.ascending.insert_upTo key value)
      (length_inserted sound key value) with
      ⟨root, rfl, free, becomes⟩ | ⟨left, median, right, rfl, grown⟩
    · exact .inl ⟨free, tree.written root, rfl, becomes⟩
    · exact grown
  · rw [insertKey_exhausted counted]
    exact .inr ⟨.sumTooLarge, roomFor_exhausted counted _, rfl⟩

end Tree

/-- The entries after an updating insertion that prefers the last equal key. -/
def putLast [Ord κ] (key : κ) (value : ν) (entries : List (κ × ν)) : List (κ × ν) :=
  match equalBefore key entries (countUpTo key entries) with
  | some entry => entries.set (countUpTo key entries - 1) (entry.1, value)
  | none => entries.insertIdx (countUpTo key entries) (key, value)

namespace Tree

variable [Ord κ] [Footprint κ] [Footprint ν] [Std.TransOrd κ] {tree : Tree κ ν}

/-- With an equal key in front of the gap, an updating insertion that can be counted changes
the value there and answers the old one. -/
theorem insertOrUpdate_replaced (sound : tree.Sound)
    (counted : tree.generation + 1 < Fault.wordLimit) {key : κ} {entry : κ × ν} (value : ν)
    (equal : equalBefore key tree.toList (countUpTo key tree.toList) = some entry) :
    ∃ after, tree.insertOrUpdate key value = ⟨[], .ok (some entry.2, after)⟩ ∧
      tree.Revalues (tree.toList.set (countUpTo key tree.toList - 1) (entry.1, value)) after := by
  obtain ⟨trail, descended, enters⟩ := descendAfter_enters sound key
  obtain ⟨height, shaped⟩ := sound.shaped
  obtain ⟨changed, run, rewritten⟩ := Trail.insert_replaced enters shaped value equal false
  obtain ⟨place, gap⟩ : ∃ place, countUpTo key tree.toList = place + 1 := by
    cases gap : countUpTo key tree.toList with
    | zero => simp [gap, equalBefore] at equal
    | succ place => exact ⟨place, rfl⟩
  rw [gap] at equal rewritten ⊢
  refine ⟨tree.written changed, ?_,
    rewritten_revalues sound counted shaped (entryEqualTo_eq_some.mp equal).1 rewritten⟩
  simp only [insertOrUpdate, checkGeneration_eq, if_pos counted, descended, Traced.lift_ok,
    pure_bind, run]
  rfl

/-- Without an equal key in front of the gap, an updating insertion is a plain one that
answers no old value. -/
theorem insertOrUpdate_absent (sound : tree.Sound) {key : κ} (value : ν)
    (absent : equalBefore key tree.toList (countUpTo key tree.toList) = none) :
    tree.insertOrUpdate key value = tree.insertKey key value >>= fun after =>
      pure (none, after) := by
  by_cases counted : tree.generation + 1 < Fault.wordLimit
  · obtain ⟨trail, events, upshot, height, descended, enters, run, shaped, leaves⟩ :=
      insertKey_leaves sound counted key value
    have plain := Trail.insert_absent enters shaped value sound.ascending
      (sound.ascending.not_greater key) absent
    simp only [insertOrUpdate, insertKey, checkGeneration_eq, if_pos counted, descended,
      Traced.lift_ok, pure_bind, plain, run, bind_assoc]
    rw [Traced.answered_bind, Traced.answered_bind]
    rcases upshot_admits sound counted shaped leaves (sound.ascending.insert_upTo key value)
      (length_inserted sound key value) with
      ⟨root, rfl, _⟩ | ⟨left, median, right, rfl, _⟩ <;> rfl
  · rw [insertOrUpdate_exhausted counted, insertKey_exhausted counted, Traced.refuse_bind]

/-- With an equal key, an updating insertion reports nothing, and writes to the entry in
front of the gap if the write can be counted. -/
theorem insertOrUpdate_last (sound : tree.Sound) {key : κ} {last : κ × ν} (value : ν)
    (equal : equalBefore key tree.toList (countUpTo key tree.toList) = some last) :
    (tree.insertOrUpdate key value).events = [] ∧
      tree.checkGeneration.Admits (tree.insertOrUpdate key value).outcome (fun answer =>
        answer.1 = some last.2 ∧ tree.Revalues
          (tree.toList.set (countUpTo key tree.toList - 1) (last.1, value)) answer.2) := by
  rw [checkGeneration_eq]
  by_cases counted : tree.generation + 1 < Fault.wordLimit
  · obtain ⟨after, ran, revalues⟩ := insertOrUpdate_replaced sound counted value equal
    rw [ran, if_pos counted]
    exact ⟨rfl, .of_open rfl ⟨rfl, revalues⟩⟩
  · rw [insertOrUpdate_exhausted counted, if_neg counted]
    exact ⟨rfl, .inr ⟨.sumTooLarge, rfl, rfl⟩⟩

/-- An updating insertion changes the value of the last equal key and answers the old one,
or inserts like a plain one, where there is room for what it leaves. -/
theorem insertOrUpdate_admits (sound : tree.Sound) (key : κ) (value : ν) :
    (tree.roomFor (putLast key value tree.toList).length).Admits
      (tree.insertOrUpdate key value).outcome (fun answer =>
        answer.1 = (equalBefore key tree.toList (countUpTo key tree.toList)).map Prod.snd ∧
          tree.Becomes (putLast key value tree.toList) answer.2) := by
  rw [putLast]
  cases equal : equalBefore key tree.toList (countUpTo key tree.toList) with
  | some entry =>
    have kept : (tree.toList.set (countUpTo key tree.toList - 1) (entry.1, value)).length =
        tree.size := by
      rw [List.length_set, size_eq sound]
    simp only [kept, sound.roomFor_size]
    exact (insertOrUpdate_last sound value equal).2.imp
      (fun answer _ ⟨previous, revalues⟩ => ⟨previous, revalues.toBecomes⟩)
  | none =>
    rw [insertOrUpdate_absent sound value equal, Traced.outcome_bind]
    simp only [length_inserted sound key value]
    exact (insertKey_admits sound key value).bind_ok
      (fun after becomes => ⟨(none, after), rfl, rfl, becomes⟩)

end Tree

end CountedBTree
