import CountedBTree.Proofs.TreeInsertion

/-!
# Looking up a key

The descent that keeps the smaller keys on its left stands in the gap in front of the first
entry whose key is not smaller. If that entry has an equal key, the descent has passed it:
it is the entry at the slot in the leaf, or the separator after the deepest child that the
gap lies at the very end of. The deepest match of the descent is therefore the first equal
entry in order, and a match further up can only be an equal entry behind it.
-/

namespace CountedBTree

variable {κ ν : Type} [Ord κ]

namespace Node

section Hole

variable {entries : List (κ × ν)} {children : List (Node κ ν)} {number : Nat}
variable {child : Node κ ν}

/-- An entry behind a gap inside a child is the same one in the branch. -/
theorem entryEqualTo_child (arity : children.length = entries.length + 1)
    (found : children[number]? = some child) (key : κ) {gap : Nat}
    (inside : gap < child.toList.length) :
    entryEqualTo key (weave (toLists children) entries)
        ((inFront entries children number).length + gap) =
      entryEqualTo key child.toList gap := by
  simp only [entryEqualTo, weave_getElem?_child arity found inside]

/-- Behind the end of a child comes the separator after it, if there is one. -/
theorem entryEqualTo_separator (arity : children.length = entries.length + 1)
    (found : children[number]? = some child) (key : κ) :
    entryEqualTo key (weave (toLists children) entries)
        ((inFront entries children number).length + child.toList.length) =
      entryEqualTo key entries number := by
  by_cases inside : number < entries.length
  · simp only [entryEqualTo, weave_getElem?_separator arity found inside,
      List.getElem?_eq_getElem inside]
  · have bound := (List.getElem?_eq_some_iff.mp found).1
    have last : number = entries.length := by omega
    subst last
    have length := length_weave_at arity found
    rw [behind_last arity, List.length_nil, Nat.add_zero] at length
    have past : entries[entries.length]? = none := List.getElem?_eq_none (Nat.le_refl _)
    simp only [entryEqualTo, List.getElem?_eq_none (Nat.le_of_eq length), past]

/-- Nothing stands behind the end of a run. -/
theorem entryEqualTo_length (key : κ) (run : List (κ × ν)) :
    entryEqualTo key run run.length = none := by
  simp [entryEqualTo]

/-- An entry of a child that is not less than a key and not equal to it makes the separator
after the child unequal. -/
theorem entryEqualTo_after [Std.TransOrd κ] (arity : children.length = entries.length + 1)
    {key : κ} {gap : Nat} (ascending : Ascending (inFront entries children number ++
      child.toList ++ behind entries children number))
    (inside : gap < child.toList.length)
    (notLess : ∀ entry ∈ child.toList.drop gap, (compare entry.1 key).isLT = false)
    (absent : entryEqualTo key child.toList gap = none) :
    entryEqualTo key entries number = none := by
  by_cases separated : number < entries.length
  · obtain ⟨next, follows⟩ := next_child arity separated
    have first : child.toList[gap] ∈ child.toList.drop gap := by
      rw [List.drop_eq_getElem_cons inside]
      exact List.mem_cons_self
    have notEqual : (compare child.toList[gap].1 key).isEq = false := by
      simpa [entryEqualTo, List.getElem?_eq_getElem inside] using absent
    have ordered : (compare child.toList[gap].1 entries[number].1).isLE = true := by
      rw [behind_cons follows separated] at ascending
      exact (List.pairwise_append.mp ascending).2.2 _
        (List.mem_append_right _ (List.getElem_mem inside)) _ List.mem_cons_self
    have apart := no_equal_behind ordered (notLess _ first) notEqual
    simp only [entryEqualTo, List.getElem?_eq_getElem separated, Option.filter_some, apart]
    rfl
  · simp [entryEqualTo, List.getElem?_eq_none (Nat.le_of_not_lt separated)]

end Hole

end Node

namespace Trail

variable [Std.TransOrd κ] {capacities : Capacities} {height gap : Nat} {node : Node κ ν}
variable {trail : Trail κ ν}

/-- Without an equal entry behind its gap, a descent has no match at all. -/
theorem deepest_absent (enters : Enters node trail gap)
    (shaped : Node.Shaped capacities height node) {key : κ} (ascending : Ascending node.toList)
    (notLess : ∀ entry ∈ node.toList.drop gap, (compare entry.1 key).isLT = false)
    (absent : entryEqualTo key node.toList gap = none) :
    trail.deepestMatch key = none ∧ trail.deepestValue key = none := by
  induction enters generalizing height with
  | @leaf capacity total slot entries inside =>
    have missing : CountedBTree.entryEqualTo key entries slot = none := absent
    simp [deepestMatch, deepestValue, Frame.entryEqualTo, Node.entries, missing]
  | @branch capacity total number gap entries children child rest found below
      inductionHypothesis =>
    cases shaped with
    | branch fits separated arity counted shaped filled =>
      have childShaped := shaped child (List.mem_of_getElem? found)
      have within := below.gap_le childShaped
      rw [Node.toList, Node.weave_at arity found] at ascending notLess
      have childNotLess : ∀ entry ∈ child.toList.drop gap, (compare entry.1 key).isLT = false :=
        fun entry member => notLess entry (mem_drop_middle _ _ _ within member)
      have split : CountedBTree.entryEqualTo key child.toList gap = none ∧
          CountedBTree.entryEqualTo key entries number = none := by
        rw [Node.toList] at absent
        rcases Nat.lt_or_eq_of_le within with inside | ends
        · rw [Node.entryEqualTo_child arity found key inside] at absent
          exact ⟨absent,
            Node.entryEqualTo_after arity ascending inside childNotLess absent⟩
        · rw [ends, Node.entryEqualTo_separator arity found key] at absent
          exact ⟨ends ▸ Node.entryEqualTo_length key child.toList, absent⟩
      obtain ⟨childAbsent, missing⟩ := split
      obtain ⟨noMatch, noValue⟩ :=
        inductionHypothesis childShaped ascending.middle childNotLess childAbsent
      simp [deepestMatch, deepestValue, noMatch, noValue, Frame.entryEqualTo, Node.entries,
        missing]

/-- The equal entry behind its gap is the deepest match of a descent. -/
theorem deepest_found (enters : Enters node trail gap)
    (shaped : Node.Shaped capacities height node) {key : κ} {entry : κ × ν}
    (ascending : Ascending node.toList)
    (notLess : ∀ entry ∈ node.toList.drop gap, (compare entry.1 key).isLT = false)
    (equal : entryEqualTo key node.toList gap = some entry) :
    trail.deepestValue key = some entry.2 ∧
      ∃ numbers slot found, trail.deepestMatch key = some (numbers, slot) ∧
        node.follow slot numbers = .ok found ∧ Leads node found gap := by
  induction enters generalizing height with
  | @leaf capacity total slot entries inside =>
    have here : CountedBTree.entryEqualTo key entries slot = some entry := equal
    have present : slot < entries.length :=
      (List.getElem?_eq_some_iff.mp (entryEqualTo_eq_some.mp here).1).1
    refine ⟨by simp [deepestValue, Frame.entryEqualTo, Node.entries, here], [], slot,
      [⟨.leaf capacity total entries, slot⟩], ?_, ?_, .leaf present⟩
    · simp [deepestMatch, Frame.entryEqualTo, Node.entries, here]
    · simp [Node.follow, Node.size, Node.entries, present]
  | @branch capacity total number gap entries children child rest found below
      inductionHypothesis =>
    cases shaped with
    | branch fits separated arity counted shaped filled =>
      have childShaped := shaped child (List.mem_of_getElem? found)
      have within := below.gap_le childShaped
      rw [Node.toList, Node.weave_at arity found] at ascending notLess
      rw [Node.toList] at equal
      have childNotLess : ∀ entry ∈ child.toList.drop gap, (compare entry.1 key).isLT = false :=
        fun entry member => notLess entry (mem_drop_middle _ _ _ within member)
      rcases Nat.lt_or_eq_of_le within with inside | ends
      · rw [Node.entryEqualTo_child arity found key inside] at equal
        obtain ⟨value, numbers, slot, lower, matched, followed, leads⟩ :=
          inductionHypothesis childShaped ascending.middle childNotLess equal
        refine ⟨by simp [deepestValue, value], number :: numbers, slot,
          ⟨.branch capacities.branch total entries children, number⟩ :: lower, ?_, ?_,
          .child found leads⟩
        · simp [deepestMatch, matched]
        · simp [Node.follow, Node.childAt, found, followed]
      · rw [ends, Node.entryEqualTo_separator arity found key] at equal
        have inside : number < entries.length :=
          (List.getElem?_eq_some_iff.mp (entryEqualTo_eq_some.mp equal).1).1
        obtain ⟨noMatch, noValue⟩ := deepest_absent below childShaped ascending.middle
          childNotLess (ends ▸ Node.entryEqualTo_length key child.toList)
        rw [ends]
        refine ⟨by simp [deepestValue, noValue, Frame.entryEqualTo, Node.entries, equal], [],
          number, [⟨.branch capacities.branch total entries children, number⟩], ?_, ?_,
          .separator found inside⟩
        · simp [deepestMatch, noMatch, Frame.entryEqualTo, Node.entries, equal]
        · simp [Node.follow, Node.size, Node.entries, inside]

end Trail

namespace Node

/-- A lookup continues in the child with the number given, if there is one. -/
theorem lookupChild_eq (key : κ) (missing : Fault) (number : Nat) (children : List (Node κ ν))
    (child : Node κ ν) (found : children[number]? = some child) :
    lookupChild key missing number children = child.lookup key := by
  induction children generalizing number with
  | nil => simp at found
  | cons first rest inductionHypothesis =>
    cases number with
    | zero =>
      have same : first = child := by simpa using found
      simp [lookupChild, same]
    | succ number =>
      have later : rest[number]? = some child := by simpa using found
      simpa [lookupChild] using inductionHypothesis number later

/-- A lookup that was answered in a child took its answer from there. -/
theorem lookupChild_eq_ok {key : κ} {missing : Fault} {number : Nat}
    {children : List (Node κ ν)} {found : Option ν}
    (looked : lookupChild key missing number children = .ok found) :
    ∃ child, children[number]? = some child ∧ child.lookup key = .ok found := by
  cases present : children[number]? with
  | some child =>
    rw [lookupChild_eq key missing number children child present] at looked
    exact ⟨child, rfl, looked⟩
  | none =>
    induction children generalizing number with
    | nil => simp [lookupChild] at looked
    | cons first rest inductionHypothesis =>
      cases number with
      | zero => simp at present
      | succ number => exact inductionHypothesis looked (by simpa using present)

/-- What a lookup finds is the value of an entry with an equal key. -/
theorem lookup_mem {capacities : Capacities} {height : Nat} {node : Node κ ν}
    (shaped : Shaped capacities height node) {key : κ} {value : ν}
    (looked : node.lookup key = .ok (some value)) :
    ∃ entry ∈ node.toList, (compare entry.1 key).isEq = true ∧ entry.2 = value := by
  induction shaped with
  | @leaf total entries fits counted =>
    simp only [lookup, Except.ok.injEq, Option.map_eq_some_iff] at looked
    obtain ⟨entry, equal, rfl⟩ := looked
    obtain ⟨present, same⟩ := entryEqualTo_eq_some.mp equal
    exact ⟨entry, List.mem_of_getElem? present, same, rfl⟩
  | @branch height total entries children fits separated arity counted shaped filled
      inductionHypothesis =>
    have whole : Shaped capacities (height + 1)
        (.branch capacities.branch total entries children) :=
      .branch fits separated arity counted shaped filled
    simp only [lookup] at looked
    cases equal : entryEqualTo key entries (CountedBTree.firstSlot key entries) with
    | some entry =>
      rw [equal] at looked
      obtain ⟨present, same⟩ := entryEqualTo_eq_some.mp equal
      have member := whole.entries_sublist.subset (List.mem_of_getElem? present)
      exact ⟨entry, member, same, Option.some.inj (Except.ok.inj looked)⟩
    | none =>
      rw [equal] at looked
      obtain ⟨child, present, below⟩ := lookupChild_eq_ok looked
      obtain ⟨entry, member, same⟩ :=
        inductionHypothesis child (List.mem_of_getElem? present) below
      refine ⟨entry, ?_, same⟩
      rw [toList, weave_at arity present]
      simp [member]

/-- A lookup stops at the first match on the way down, so it finds something exactly when
the descent has a match anywhere. -/
theorem lookup_isSome [Std.TransOrd κ] {capacities : Capacities} {height : Nat}
    {node : Node κ ν} (shaped : Shaped capacities height node) (key : κ)
    (ascending : Ascending node.toList) :
    ∃ trail found, node.descend (fun visited => visited.firstSlot key) = .ok trail ∧
      node.lookup key = .ok found ∧ found.isSome = (trail.deepestValue key).isSome := by
  induction shaped with
  | leaf fits counted => exact ⟨_, _, rfl, rfl, rfl⟩
  | @branch height total entries children fits separated arity counted shaped filled
      inductionHypothesis =>
    have whole : Shaped capacities (height + 1)
        (.branch capacities.branch total entries children) :=
      .branch fits separated arity counted shaped filled
    have slot : Node.firstSlot (.branch capacities.branch total entries children) key =
        countBelow key entries :=
      firstSlot_eq_countBelow (ascending.of_sublist whole.entries_sublist) key
    have bound : countBelow key entries ≤ entries.length := List.countP_le_length
    obtain ⟨child, present⟩ : ∃ child, children[countBelow key entries]? = some child :=
      ⟨children[countBelow key entries], List.getElem?_eq_getElem (by omega)⟩
    rw [toList, weave_at arity present] at ascending
    obtain ⟨rest, found, descended, looked, same⟩ :=
      inductionHypothesis child (List.mem_of_getElem? present) ascending.middle
    have slotHere : CountedBTree.firstSlot key entries = countBelow key entries := slot
    have descendedHere : Node.descend (fun visited => visited.firstSlot key)
        (.branch capacities.branch total entries children) =
        .ok (⟨.branch capacities.branch total entries children, countBelow key entries⟩ ::
          rest) := by
      simp only [descend, slot, descendInto_eq _ _ _ child present, descended, Checked.ok_bind,
        Checked.pure_eq]
    cases equal : entryEqualTo key entries (countBelow key entries) with
    | some entry =>
      refine ⟨_, some entry.2, descendedHere, by simp [lookup, slotHere, equal], ?_⟩
      cases deeper : rest.deepestValue key <;>
        simp [Trail.deepestValue, deeper, Frame.entryEqualTo, Node.entries, equal]
    | none =>
      refine ⟨_, found, descendedHere, ?_, ?_⟩
      · simp only [lookup, slotHere, equal, lookupChild_eq _ _ _ _ child present, looked]
      · cases deeper : rest.deepestValue key <;>
          simp [Trail.deepestValue, deeper, Frame.entryEqualTo, Node.entries, equal, same]

end Node

namespace Tree

variable [Footprint κ] [Footprint ν] [Std.TransOrd κ] {tree : Tree κ ν}

/-- The descent of a lookup enters the gap behind all smaller keys. -/
theorem descendBefore_enters (sound : tree.Sound) (key : κ) :
    ∃ trail, tree.descendBefore key = .ok trail ∧
      Trail.Enters tree.root trail (countBelow key tree.toList) := by
  obtain ⟨height, shaped⟩ := sound.shaped
  exact Node.descend_enters shaped _ _ (fun _ => rfl) (sound.ascending.cut_below key)

/-- The number of entries with a smaller key. -/
theorem countLess_eq (sound : tree.Sound) (key : κ) :
    tree.countLess key = .ok (countBelow key tree.toList) := by
  obtain ⟨trail, descended, enters⟩ := descendBefore_enters sound key
  obtain ⟨height, shaped⟩ := sound.shaped
  simp only [countLess, descended, Checked.ok_bind]
  exact enters.countBefore_eq shaped sound.small

/-- The number of entries whose key is not greater. -/
theorem countNotGreater_eq (sound : tree.Sound) (key : κ) :
    tree.countNotGreater key = .ok (countUpTo key tree.toList) := by
  obtain ⟨trail, descended, enters⟩ := descendAfter_enters sound key
  obtain ⟨height, shaped⟩ := sound.shaped
  simp only [countNotGreater, descended, Checked.ok_bind]
  exact enters.countBefore_eq shaped sound.small

/-- With an equal key, the first such entry is located, and its value is found. -/
theorem locateFirst_found (sound : tree.Sound) {key : κ} {entry : κ × ν}
    (first : tree.toList.find? (fun entry => (compare entry.1 key).isEq) = some entry) :
    tree.firstValue key = .ok (some entry.2) ∧
      ∃ numbers slot found, tree.locateFirst key = .ok (some (numbers, slot)) ∧
        tree.root.follow slot numbers = .ok found ∧
        Trail.Leads tree.root found (countBelow key tree.toList) := by
  obtain ⟨trail, descended, enters⟩ := descendBefore_enters sound key
  obtain ⟨height, shaped⟩ := sound.shaped
  rw [← sound.ascending.entryEqualTo_eq_find] at first
  obtain ⟨value, numbers, slot, found, matched, followed, leads⟩ :=
    Trail.deepest_found enters shaped sound.ascending (sound.ascending.not_less key) first
  refine ⟨by simp [firstValue, descended, value], numbers, slot, found, ?_, followed, leads⟩
  simp [locateFirst, descended, matched]

/-- Without an equal key, nothing is located. -/
theorem locateFirst_absent (sound : tree.Sound) {key : κ}
    (absent : tree.toList.find? (fun entry => (compare entry.1 key).isEq) = none) :
    tree.firstValue key = .ok none ∧ tree.locateFirst key = .ok none := by
  obtain ⟨trail, descended, enters⟩ := descendBefore_enters sound key
  obtain ⟨height, shaped⟩ := sound.shaped
  rw [← sound.ascending.entryEqualTo_eq_find] at absent
  obtain ⟨noMatch, noValue⟩ :=
    Trail.deepest_absent enters shaped sound.ascending (sound.ascending.not_less key) absent
  exact ⟨by simp [firstValue, descended, noValue], by simp [locateFirst, descended, noMatch]⟩

/-- The value found for a key is that of the first equal entry. -/
theorem firstValue_eq (sound : tree.Sound) (key : κ) :
    tree.firstValue key = .ok
      ((tree.toList.find? (fun entry => (compare entry.1 key).isEq)).map Prod.snd) := by
  cases first : tree.toList.find? (fun entry => (compare entry.1 key).isEq) with
  | none => exact (locateFirst_absent sound first).1
  | some entry => exact (locateFirst_found sound first).1

/-- A lookup that stops anywhere finds the value of an entry with an equal key, if there is
one. -/
theorem anyValue_eq (sound : tree.Sound) (key : κ) :
    ∃ found, tree.anyValue key = .ok found ∧
      found.isSome = tree.toList.any (fun entry => (compare entry.1 key).isEq) ∧
      ∀ value, found = some value →
        ∃ entry ∈ tree.toList, (compare entry.1 key).isEq = true ∧ entry.2 = value := by
  obtain ⟨height, shaped⟩ := sound.shaped
  obtain ⟨trail, found, descended, looked, same⟩ :=
    Node.lookup_isSome shaped key sound.ascending
  have value : tree.firstValue key = .ok (trail.deepestValue key) := by
    have descendedBefore : tree.descendBefore key = .ok trail := descended
    simp [firstValue, descendedBefore]
  rw [firstValue_eq sound key] at value
  have valueSome := congrArg Option.isSome (Except.ok.inj value)
  rw [Option.isSome_map, List.isSome_find?, ← same] at valueSome
  refine ⟨found, looked, valueSome.symm, ?_⟩
  rintro value rfl
  exact Node.lookup_mem shaped looked

/-- A key is contained when some entry has an equal key. -/
theorem contains_eq (sound : tree.Sound) (key : κ) :
    tree.contains key = .ok (tree.toList.any (fun entry => (compare entry.1 key).isEq)) := by
  obtain ⟨found, looked, same, _⟩ := anyValue_eq sound key
  simp [contains, looked, same]

end Tree

end CountedBTree
