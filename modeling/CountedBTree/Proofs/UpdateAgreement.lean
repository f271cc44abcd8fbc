import CountedBTree.Session.Trees
import CountedBTree.Proofs.DictionaryRuns
import CountedBTree.Proofs.KeyMaps
import CountedBTree.Proofs.LastUpdate

/-!
# Updating the first or the last equal key

Two insertions update. One looks for the first equal key and writes there by its place, or goes
down a second time to insert. The other goes down once, behind all equal keys, and hands the
update up to the last of them. With distinct keys there is only one equal key to find, so both
write the same value into the same entry. They take different ways to it, but a tree is determined
by its outline and the list of its entries, and both ways leave the outline as it was. Without an
equal key both are the plain insertion.

So the two agree in everything: the tree made, node for node, the value answered, the events and
the refusals. Keys stay distinct, and a list of updates may be written by either rule at every
step.
-/

namespace CountedBTree

variable {α β κ ν : Type}

/-! ## What determines a node -/

/-- Renaming the elements commutes with weaving them. -/
theorem weave_map (image : α → β) (blocks : List (List α)) (separators : List α) :
    weave (blocks.map (List.map image)) (separators.map image) =
      (weave blocks separators).map image := by
  induction blocks generalizing separators with
  | nil => rfl
  | cons block blocks inductionHypothesis =>
    cases separators with
    | nil => simpa [weave] using inductionHypothesis []
    | cons separator separators => simp [weave, inductionHypothesis separators]

/-- Blocks of known lengths and the separators between them can be read off the list they are
woven into. -/
theorem weave_inj {blocks others : List (List α)} {separators more : List α}
    (lengths : others.map List.length = blocks.map List.length)
    (paired : more.length = separators.length) (enough : separators.length ≤ blocks.length)
    (same : weave others more = weave blocks separators) :
    others = blocks ∧ more = separators := by
  induction blocks generalizing others separators more with
  | nil =>
    have none : separators = [] := by simpa using enough
    subst none
    exact ⟨by simpa using lengths, by simpa using paired⟩
  | cons block blocks inductionHypothesis =>
    cases others with
    | nil => simp at lengths
    | cons other others =>
      obtain ⟨length, shorter⟩ := List.cons.inj lengths
      cases separators with
      | nil =>
        obtain rfl : more = [] := by simpa using paired
        obtain ⟨rfl, rest⟩ := List.append_inj same length
        obtain ⟨rfl, _⟩ := inductionHypothesis shorter rfl (Nat.zero_le _) rest
        exact ⟨rfl, rfl⟩
      | cons separator separators =>
        cases more with
        | nil => simp at paired
        | cons first more =>
          obtain ⟨rfl, behind⟩ := List.append_inj same length
          obtain ⟨rfl, rest⟩ := List.cons.inj behind
          obtain ⟨rfl, rfl⟩ := inductionHypothesis shorter (by simpa using paired)
            (by simpa using enough) rest
          exact ⟨rfl, rfl⟩

namespace Node

/-- The outline lists the keys of the subtree. -/
theorem toList_outline (node : Node κ ν) :
    node.outline.toList = node.toList.map fun entry => (entry.1, ()) := by
  induction node using Node.induct with
  | leaf capacity total entries => rfl
  | branch capacity total entries children inductionHypothesis =>
    have blocks : toLists (outlines children) =
        (toLists children).map (List.map fun entry => (entry.1, ())) := by
      rw [outlines_eq_map, toLists_eq_map, toLists_eq_map, List.map_map, List.map_map]
      exact List.map_congr_left inductionHypothesis
    rw [outline, toList, toList, blocks, weave_map]

/-- Subtrees with one outline list equally many entries. -/
theorem length_toList_of_outline {node other : Node κ ν} (same : other.outline = node.outline) :
    other.toList.length = node.toList.length := by
  have keys := congrArg (fun outlined => outlined.toList.length) same
  simpa only [toList_outline, List.length_map] using keys

/-- A subtree in shape is the only one with its outline and its entries. -/
theorem Shaped.eq_of_outline {capacities : Capacities} {height : Nat} {node other : Node κ ν}
    (shaped : Shaped capacities height node) (same : other.outline = node.outline)
    (listed : other.toList = node.toList) : other = node := by
  induction shaped generalizing other with
  | leaf fits counted =>
    cases other with
    | leaf =>
      simp only [outline, Node.leaf.injEq] at same
      obtain ⟨rfl, rfl, _⟩ := same
      exact congrArg _ listed
    | branch => simp [outline] at same
  | @branch height total entries children fits separated arity counted shaped filled
      inductionHypothesis =>
    cases other with
    | leaf => simp [outline] at same
    | branch capacity count separators others =>
      simp only [outline, Node.branch.injEq, outlines_eq_map] at same
      obtain ⟨rfl, rfl, keys, outlined⟩ := same
      have wide : others.length = children.length := by
        simpa using congrArg List.length outlined
      have paired : separators.length = entries.length := by
        simpa using congrArg List.length keys
      have pairs : ∀ (number : Nat) (first : number < others.length)
          (second : number < children.length),
          others[number].outline = children[number].outline := by
        intro number first second
        have there := congrArg (fun row => row[number]?) outlined
        simpa [first, second] using there
      have lengths : (toLists others).map List.length = (toLists children).map List.length := by
        apply List.ext_getElem
        · simpa [toLists_eq_map] using wide
        · intro number first second
          simp only [toLists_eq_map, List.length_map] at first second
          simpa [toLists_eq_map] using length_toList_of_outline (pairs number first second)
      have enough : entries.length ≤ (toLists children).length := by
        rw [toLists_eq_map, List.length_map]
        omega
      obtain ⟨blocks, rfl⟩ := weave_inj lengths paired enough listed
      congr 1
      apply List.ext_getElem wide
      intro number first second
      apply inductionHypothesis _ (List.getElem_mem second) (pairs number first second)
      have there := congrArg (fun row => row[number]?) blocks
      simpa [toLists_eq_map, first, second] using there

end Node

/-- Changes of values that list the same entries make the same tree. -/
theorem Tree.Revalues.unique [Ord κ] [Footprint κ] [Footprint ν] {tree after other : Tree κ ν}
    {contents : List (κ × ν)} (first : tree.Revalues contents after)
    (second : tree.Revalues contents other) : other = after := by
  obtain ⟨height, shaped⟩ := first.sound.shaped
  have root : other.root = after.root :=
    shaped.eq_of_outline (second.outline_eq.trans first.outline_eq.symm)
      (second.listed.trans first.listed.symm)
  have capacities := second.capacities_eq.trans first.capacities_eq.symm
  have generation := second.generation_eq.trans first.generation_eq.symm
  cases after
  cases other
  simp_all

/-! ## Distinct keys -/

variable [Ord κ]

/-- No two entries have equal keys. -/
def DistinctKeys (entries : List (κ × ν)) : Prop :=
  entries.Pairwise (fun earlier later => compare earlier.1 later.1 ≠ .eq)

/-- Distinct keys that ascend increase. -/
theorem Ascending.increasing {entries : List (κ × ν)} (ascending : Ascending entries)
    (distinct : DistinctKeys entries) : Increasing entries := by
  apply (List.Pairwise.and ascending distinct).imp
  rintro earlier later ⟨ordered, apart⟩
  cases order : compare earlier.1 later.1 with
  | lt => rfl
  | eq => exact absurd order apart
  | gt => simp [order] at ordered

/-- Increasing keys are distinct. -/
theorem Increasing.distinct {entries : List (κ × ν)} (increasing : Increasing entries) :
    DistinctKeys entries :=
  increasing.imp (fun less => by simp [less])

section Runs

variable [Std.TransOrd κ] {entries : List (κ × ν)} {key : κ} {entry : κ × ν}

/-- Behind the only equal key all keys are greater, so the gap of the key is directly behind
it. -/
theorem Increasing.countUpTo_eq_succ (increasing : Increasing entries)
    (first : entries.find? (fun entry => (compare entry.1 key).isEq) = some entry) :
    countUpTo key entries = countBelow key entries + 1 := by
  obtain ⟨front, back, split, sameKey, length, less, _⟩ :=
    increasing.ascending.first_of_find first
  have notLess : (compare key entry.1).isLE = true := by simp [Std.OrientedCmp.eq_symm sameKey]
  have before : front.countP (fun other => (compare other.1 key).isLE) = front.length := by
    apply List.countP_eq_length.mpr
    intro other member
    simp [less other member]
  have behind : back.countP (fun other => (compare other.1 key).isLE) = 0 := by
    rw [split] at increasing
    have rest : Increasing (entry :: back) := (List.pairwise_append.mp increasing).2.1
    apply List.countP_eq_zero.mpr
    intro other member
    simp [rest.greater_behind notLess other member]
  rw [← length, countUpTo, split, List.countP_append, List.countP_cons, before, behind]
  simp [sameKey]

end Runs

/-! ## Both updates -/

namespace Tree

variable [Footprint κ] [Footprint ν] [Std.TransOrd κ] {tree : Tree κ ν}

/-- With distinct keys, updating the last equal key is updating the first one. -/
theorem insertOrUpdate_eq (sound : tree.Sound) (distinct : DistinctKeys tree.toList) (key : κ)
    (value : ν) : tree.insertOrUpdate key value = tree.updateFirstOrInsert key value := by
  cases first : tree.toList.find? (fun entry => (compare entry.1 key).isEq) with
  | none =>
    rw [insertOrUpdate_absent sound value (sound.ascending.equalBefore_absent first),
      updateFirstOrInsert_absent sound value first]
  | some entry =>
    have gap := (sound.ascending.increasing distinct).countUpTo_eq_succ first
    have equal : equalBefore key tree.toList (countUpTo key tree.toList) = some entry := by
      rw [gap, equalBefore, sound.ascending.entryEqualTo_eq_find, first]
    obtain ⟨silent, admits⟩ := updateFirstOrInsert_found sound value first
    obtain ⟨silentLast, admitsLast⟩ := insertOrUpdate_last sound value equal
    rw [gap, Nat.add_sub_cancel] at admitsLast
    apply Traced.ext
    · rw [silentLast, silent]
    · apply admitsLast.unique admits
      rintro ⟨_, after⟩ ⟨_, other⟩ ⟨rfl, revalues⟩ ⟨rfl, revaluesOther⟩
      exact congrArg (Prod.mk _) (revaluesOther.unique revalues)

/-- With distinct keys an update puts the entry in its place, answers the value it replaced, and
keeps keys distinct, where there is room for what it leaves. -/
theorem update_admits (sound : tree.Sound) (distinct : DistinctKeys tree.toList) (key : κ)
    (value : ν) :
    (tree.roomFor (put key value tree.toList).length).Admits
      (tree.updateFirstOrInsert key value).outcome (fun answer =>
        answer.1 = valueOf key tree.toList ∧ tree.Becomes (put key value tree.toList) answer.2 ∧
          DistinctKeys answer.2.toList) := by
  have increasing := sound.ascending.increasing distinct
  have kept := (increasing.put key value).distinct
  rw [← increasing.putFirst_eq_put] at kept ⊢
  apply (updateFirstOrInsert_admits sound key value).imp
  rintro answer _ ⟨previous, becomes⟩
  exact ⟨previous, becomes, becomes.listed.symm ▸ kept⟩

end Tree

/-- Whether a rule replaces the value of an equal key. -/
def WriteRule.updates : WriteRule → Bool
  | insertKey => false
  | insertOrUpdate | updateFirstOrInsert => true

/-- An entry to write, and the rule to write it by. -/
abbrev RuledWrite (κ ν : Type) := WriteRule × κ × ν

namespace Tree

variable [Footprint κ] [Footprint ν]

/-- Write entries one after the other, each by its own rule, and answer the values replaced. -/
def writeEach (tree : Tree κ ν) : List (RuledWrite κ ν) → Traced Fault (List (Option ν) × Tree κ ν)
  | [] => pure ([], tree)
  | (rule, key, value) :: rest => do
      let (old, written) ← TreeSession.writeBy rule tree key value
      let (olds, final) ← written.writeEach rest
      pure (old :: olds, final)

variable [Std.TransOrd κ] {tree : Tree κ ν}

/-- With distinct keys it does not matter by which rule an update is written. -/
theorem writeBy_eq (sound : tree.Sound) (distinct : DistinctKeys tree.toList) {rule : WriteRule}
    (updates : rule.updates = true) (key : κ) (value : ν) :
    TreeSession.writeBy rule tree key value = tree.updateFirstOrInsert key value := by
  cases rule with
  | insertKey => contradiction
  | insertOrUpdate => exact insertOrUpdate_eq sound distinct key value
  | updateFirstOrInsert => rfl

/-- With distinct keys, updates written by any rules leave the tree, answer the values, and report
the events that they would by any other rules.

The induction goes through the writes. After each of them the two trees are one, sound and with
distinct keys again, or both writes were refused alike. -/
theorem writeEach_eq (sound : tree.Sound) (distinct : DistinctKeys tree.toList)
    {writes others : List (RuledWrite κ ν)} (updates : ∀ write ∈ writes, write.1.updates = true)
    (othersUpdate : ∀ write ∈ others, write.1.updates = true)
    (same : writes.map Prod.snd = others.map Prod.snd) :
    tree.writeEach writes = tree.writeEach others := by
  induction writes generalizing tree others with
  | nil =>
    obtain rfl : others = [] := by simpa using same.symm
    rfl
  | cons write writes inductionHypothesis =>
    cases others with
    | nil => simp at same
    | cons other others =>
      obtain ⟨rule, key, value⟩ := write
      obtain ⟨otherRule, otherKey, otherValue⟩ := other
      obtain ⟨entry, rest⟩ := List.cons.inj same
      obtain ⟨rfl, rfl⟩ := Prod.mk.inj entry
      have one := writeBy_eq sound distinct (updates _ List.mem_cons_self) key value
      have two := writeBy_eq sound distinct (othersUpdate _ List.mem_cons_self) key value
      have admits := update_admits sound distinct key value
      rw [writeEach, writeEach, one, two]
      generalize tree.updateFirstOrInsert key value = run at admits ⊢
      rcases run with ⟨events, cause | ⟨old, after⟩⟩
      · rfl
      · obtain ⟨_, becomes, distinctAfter⟩ := admits.of_ok rfl
        simp only [Traced.answered_bind]
        rw [inductionHypothesis becomes.sound distinctAfter
          (fun later member => updates later (List.mem_cons_of_mem _ member))
          (fun later member => othersUpdate later (List.mem_cons_of_mem _ member)) rest]

/-- Updates of a tree with distinct keys put one entry after the other in its place, where there
is room for what each of them leaves. -/
theorem writeEach_admits (sound : tree.Sound) (distinct : DistinctKeys tree.toList)
    {writes : List (RuledWrite κ ν)} (updates : ∀ write ∈ writes, write.1.updates = true) :
    (tree.roomToPut (writes.map Prod.snd)).Admits (tree.writeEach writes).outcome (fun answer =>
      answer.2.toList = putEach (writes.map Prod.snd) tree.toList ∧
        DistinctKeys answer.2.toList) := by
  induction writes generalizing tree with
  | nil => exact .of_open rfl ⟨rfl, distinct⟩
  | cons write writes inductionHypothesis =>
    obtain ⟨rule, key, value⟩ := write
    have increasing := sound.ascending.increasing distinct
    have first := update_admits sound distinct key value
    simp only [writeEach, Traced.outcome_bind,
      writeBy_eq sound distinct (updates _ List.mem_cons_self)]
    simp only [roomToPut, List.map_cons, countsAfter, Capacities.roomAlong,
      increasing.putFirst_eq_put]
    refine first.bind ?_
    rintro ⟨old, after⟩ ⟨_, becomes, distinctAfter⟩
    dsimp only at becomes distinctAfter
    have rest := inductionHypothesis becomes.sound distinctAfter
      (fun later member => updates later (List.mem_cons_of_mem _ member))
    simp only [roomToPut, becomes.capacities_eq, becomes.generation_eq, becomes.listed] at rest
    exact rest.bind_ok (fun answer wanted => ⟨_, rfl, wanted⟩)

/-- In every tree that a run leads to, if its keys are distinct, the two updates of a key make the
same tree, node for node, answer the same value, and report the same events; keys stay distinct. So
a list of updates of an empty tree may be written by either rule at every step. A refusal is the
same, too, and told by the gates of the writes. -/
theorem updates_agree {capacities : Capacities} :
    (∀ tree : Tree κ ν, tree.Reached capacities → DistinctKeys tree.toList →
      ∀ (key : κ) (value : ν),
        tree.insertOrUpdate key value = tree.updateFirstOrInsert key value ∧
        (tree.roomFor (put key value tree.toList).length).Admits
          (tree.insertOrUpdate key value).outcome (fun answer =>
            answer.1 = valueOf key tree.toList ∧
              answer.2.toList = put key value tree.toList ∧ DistinctKeys answer.2.toList)) ∧
    ∀ start : Tree κ ν, Tree.empty capacities = .ok start →
      ∀ writes others : List (RuledWrite κ ν), (∀ write ∈ writes, write.1.updates = true) →
        (∀ write ∈ others, write.1.updates = true) →
        writes.map Prod.snd = others.map Prod.snd →
          start.writeEach writes = start.writeEach others ∧
          (start.roomToPut (writes.map Prod.snd)).Admits (start.writeEach writes).outcome
            (fun answer => answer.2.toList = putEach (writes.map Prod.snd) [] ∧
              DistinctKeys answer.2.toList) := by
  constructor
  · intro tree reached distinct key value
    have sound := reached.isSound
    have agree := insertOrUpdate_eq sound distinct key value
    refine ⟨agree, ?_⟩
    rw [agree]
    apply (update_admits sound distinct key value).imp
    rintro answer _ ⟨previous, becomes, distinctAfter⟩
    exact ⟨previous, becomes.listed, distinctAfter⟩
  · intro start made writes others updates othersUpdate same
    obtain ⟨sound, _, _, none⟩ := sound_of_empty made
    have distinct : DistinctKeys start.toList := none ▸ List.Pairwise.nil
    have admits := writeEach_admits sound distinct updates
    rw [none] at admits
    exact ⟨writeEach_eq sound distinct updates othersUpdate same, admits⟩

/-- A tree of three levels in the smallest nodes there can be, with seven distinct keys. -/
def balanced : Tree Nat Nat :=
  ⟨.branch 2 7 [(4, 40)]
    [.branch 2 3 [(2, 20)] [.leaf 2 1 [(1, 10)], .leaf 2 1 [(3, 30)]],
      .branch 2 3 [(6, 60)] [.leaf 2 1 [(5, 50)], .leaf 2 1 [(7, 70)]]],
    ⟨2, 2⟩, 7⟩

theorem balanced_reached : balanced.Reached ⟨2, 2⟩ := by
  have inserted : (bare.insertAll
      [(1, 10), (2, 20), (3, 30), (4, 40), (5, 50), (6, 60), (7, 70)]).outcome =
        .ok balanced := by cbv
  exact bare_reached.insertAll inserted

/-- The one entry with the key is the separator in the root, and the first update finds it without
going down. Of the writes, the last one splits a leaf and a branch and lets the root grow. -/
theorem updates_agree_separator :
    balanced.Reached ⟨2, 2⟩ ∧ DistinctKeys balanced.toList ∧
      balanced.insertOrUpdate 4 0 = balanced.updateFirstOrInsert 4 0 ∧
      (balanced.insertOrUpdate 4 0).outcome.map Prod.fst = .ok (some 40) ∧
      let entries := [(1, 10), (2, 20), (3, 30), (4, 40), (2, 21), (5, 50), (6, 60), (7, 70)]
      bare.writeEach (entries.map fun entry => (.insertOrUpdate, entry)) =
          bare.writeEach ((entries.zipIdx.map fun (entry, step) =>
            (if step % 2 = 0 then .insertOrUpdate else .updateFirstOrInsert, entry))) := by
  have distinct : DistinctKeys balanced.toList := by
    unfold DistinctKeys
    decide
  obtain ⟨single, several⟩ := @updates_agree Nat Nat _ _ _ _ ⟨2, 2⟩
  obtain ⟨agree, _⟩ := single balanced balanced_reached distinct 4 0
  refine ⟨balanced_reached, distinct, agree, by cbv, ?_⟩
  intro entries
  exact (several bare rfl _ _ (by decide) (by decide) (by decide)).1

end Tree

end CountedBTree
