import CountedBTree.Place
import CountedBTree.Proofs.Descent
import CountedBTree.Proofs.Position

/-!
# Reaching an offset

Each way of building a trail reaches the offset it is meant for, and no other outcome is
possible in a subtree in shape. A descent by offset passes children by what they store, so
it relies on the stored counts being those of the entries. The descents along either side
rely on no child being empty.

A place is what remains of a trail without its nodes. Following it from the same root gives
the trail back, and whatever can be followed from a root is the place of some offset there.
-/

namespace CountedBTree

variable {κ ν : Type}

/-- A frame in front of a trail puts its number in front of the place. -/
theorem Place.ofTrail_cons (frame : Frame κ ν) {rest : Trail κ ν} {below : Place κ ν}
    (taken : ofTrail rest = some below) :
    ofTrail (frame :: rest) = some { below with numbers := frame.number :: below.numbers } := by
  cases rest with
  | nil => simp [ofTrail] at taken
  | cons next rest => simp [ofTrail, taken]

namespace Node

variable {capacities : Capacities} {height : Nat} {node : Node κ ν}

/-- Walking along the children from one of them reaches the offset that lies that far
behind what is in front of it.

The induction is on the children still ahead. A child that is passed together with its
separator moves to what is in front of the next child. -/
theorem seekAmong_leads {total : Nat} {entries : List (κ × ν)} {children : List (Node κ ν)}
    (arity : children.length = entries.length + 1)
    (shaped : ∀ child ∈ children, Shaped capacities height child)
    (reaches : ∀ child ∈ children, ∀ offset < child.total,
      ∃ trail, child.seek offset = .ok trail ∧ Trail.Leads child trail offset)
    (ahead : List (Node κ ν)) (number offset : Nat) (left : children.drop number = ahead)
    (present : number < children.length)
    (inside : (inFront entries children number).length + offset <
      (weave (toLists children) entries).length) :
    ∃ trail, seekAmong (.branch capacities.branch total entries children) number ahead offset =
        .ok trail ∧
      Trail.Leads (.branch capacities.branch total entries children) trail
        ((inFront entries children number).length + offset) := by
  induction ahead generalizing number offset with
  | nil =>
    have past := List.drop_eq_nil_iff.mp left
    omega
  | cons child rest inductionHypothesis =>
    rw [List.drop_eq_getElem_cons present] at left
    obtain ⟨same, left⟩ := List.cons.inj left
    have found : children[number]? = some child := same ▸ List.getElem?_eq_getElem present
    have member := List.mem_of_getElem? found
    have childTotal := (shaped child member).total_eq
    have length := length_weave_at arity found
    by_cases within : offset < child.total
    · obtain ⟨lower, sought, leads⟩ := reaches child member offset within
      exact ⟨_, by simp [seekAmong, within, sought], .child found leads⟩
    · have separated : number < entries.length := by
        by_contra last
        have last : number = entries.length := by omega
        rw [last] at length inside
        simp only [behind_last arity, List.length_nil] at length
        omega
      by_cases reached : offset = child.total
      · refine ⟨[⟨.branch capacities.branch total entries children, number⟩],
          by simp [seekAmong, reached], ?_⟩
        rw [reached, childTotal]
        exact .separator found separated
      · have front := length_inFront_succ arity found separated
        have further : (inFront entries children number).length + offset =
            (inFront entries children (number + 1)).length +
              (offset - (child.total + 1)) := by omega
        obtain ⟨trail, sought, leads⟩ := inductionHypothesis (number + 1)
          (offset - (child.total + 1)) left (by omega) (by omega)
        rw [further]
        exact ⟨trail, by simpa [seekAmong, within, reached] using sought, leads⟩

/-- A descent by offset reaches every offset below the stored count. -/
theorem seek_leads (shaped : Shaped capacities height node) (offset : Nat)
    (inside : offset < node.total) :
    ∃ trail, node.seek offset = .ok trail ∧ Trail.Leads node trail offset := by
  induction shaped generalizing offset with
  | @leaf total entries fits counted =>
    have present : offset < entries.length := counted ▸ inside
    exact ⟨_, rfl, .leaf present⟩
  | @branch height total entries children fits separated arity counted shaped filled
      inductionHypothesis =>
    have within : offset < (weave (toLists children) entries).length := counted ▸ inside
    obtain ⟨trail, sought, leads⟩ :=
      seekAmong_leads arity shaped inductionHypothesis children 0 offset rfl
        (by omega) (by simpa using within)
    exact ⟨trail, sought, by simpa using leads⟩

/-- Seeking an offset that is there reaches it. -/
theorem seekOffset_leads (shaped : Shaped capacities height node) {offset : Nat}
    (inside : offset < node.toList.length) :
    ∃ trail, node.seekOffset offset = .ok trail ∧ Trail.Leads node trail offset := by
  rw [← shaped.total_eq] at inside
  obtain ⟨trail, sought, leads⟩ := seek_leads shaped offset inside
  exact ⟨trail, by simp [seekOffset, inside, sought], leads⟩

/-- Seeking past the last entry leads nowhere. -/
theorem seekOffset_past (shaped : Shaped capacities height node) {offset : Nat}
    (past : node.toList.length ≤ offset) : node.seekOffset offset = .ok [] := by
  rw [← shaped.total_eq] at past
  simp [seekOffset, Nat.not_lt.mpr past]

/-! ## Either side -/

/-- A trail that leads to an entry does not stand in an empty leaf. -/
theorem dropEmptyLeaf_eq {trail : Trail κ ν} {offset : Nat}
    (leads : Trail.Leads node trail offset) : dropEmptyLeaf trail = trail := by
  induction leads with
  | @leaf capacity total slot entries inside =>
    have occupied : entries ≠ [] := List.ne_nil_of_length_pos (by omega)
    simp [dropEmptyLeaf, isEmpty, Node.entries, occupied]
  | @separator capacity total slot entries children child found inside =>
    have occupied : entries ≠ [] := List.ne_nil_of_length_pos (by omega)
    simp [dropEmptyLeaf, isEmpty, Node.entries, occupied]
  | @child capacity total number offset entries children child rest found lower
      inductionHypothesis =>
    obtain ⟨next, deeper, rfl⟩ := List.exists_cons_of_ne_nil lower.ne_nil
    rw [dropEmptyLeaf, inductionHypothesis]

/-- Going down through first children reaches the first entry. -/
theorem Shaped.descend_first (shaped : Shaped capacities height node)
    (occupied : 0 < node.size) :
    ∃ trail, node.descend (fun _ => 0) = .ok trail ∧ Trail.Leads node trail 0 := by
  induction shaped with
  | leaf fits counted => exact ⟨_, rfl, .leaf occupied⟩
  | @branch height total entries children fits separated arity counted shaped filled
      inductionHypothesis =>
    have found : children[0]? = some children[0] := List.getElem?_eq_getElem (by omega)
    have member := List.mem_of_getElem? found
    obtain ⟨rest, descended, leads⟩ := inductionHypothesis _ member (filled _ member).1
    have whole : Trail.Leads (.branch capacities.branch total entries children)
        (⟨.branch capacities.branch total entries children, 0⟩ :: rest) _ := .child found leads
    simp only [inFront_zero, List.length_nil, Nat.add_zero] at whole
    exact ⟨_, by simp [descend, descendInto_eq _ _ _ _ found, descended], whole⟩

/-- Going down through last children reaches the last entry. -/
theorem Shaped.descend_last (shaped : Shaped capacities height node)
    (occupied : 0 < node.size) :
    ∃ trail, node.descend (fun visited =>
        if visited.isLeaf then visited.size - 1 else visited.size) = .ok trail ∧
      Trail.Leads node trail (node.toList.length - 1) := by
  induction shaped with
  | @leaf total entries fits counted =>
    have inside : entries.length - 1 < entries.length := Nat.sub_lt occupied Nat.one_pos
    exact ⟨_, rfl, .leaf inside⟩
  | @branch height total entries children fits separated arity counted shaped filled
      inductionHypothesis =>
    have found : children[entries.length]? = some children[entries.length] :=
      List.getElem?_eq_getElem (by omega)
    have member := List.mem_of_getElem? found
    obtain ⟨rest, descended, leads⟩ := inductionHypothesis _ member (filled _ member).1
    have whole : Trail.Leads (.branch capacities.branch total entries children)
        (⟨.branch capacities.branch total entries children, entries.length⟩ :: rest) _ :=
      .child found leads
    have length := length_weave_at arity found
    have inside := leads.offset_lt (shaped _ member)
    simp only [behind_last arity, List.length_nil] at length
    have last : (weave (toLists children) entries).length - 1 =
        (inFront entries children entries.length).length +
          (children[entries.length].toList.length - 1) := by omega
    have number : (if (Node.branch capacities.branch total entries children).isLeaf then
        (Node.branch capacities.branch total entries children).size - 1
      else (Node.branch capacities.branch total entries children).size) = entries.length := rfl
    rw [toList, last]
    refine ⟨_, ?_, whole⟩
    simp only [descend, number, descendInto_eq _ _ _ _ found, descended, Checked.ok_bind,
      Checked.pure_eq]

/-- A node in shape that holds nothing is a leaf without entries. -/
theorem Shaped.eq_empty_leaf (shaped : Shaped capacities height node) (none : node.toList = []) :
    node = .leaf capacities.leaf 0 [] := by
  cases shaped with
  | @leaf total entries fits counted =>
    have empty : entries = [] := none
    simp [counted, empty]
  | branch fits separated arity counted shaped filled =>
    have length := length_weave_toLists arity
      (fun child member => (shaped child member).total_eq)
    have zero : (weave _ _).length = 0 := congrArg List.length none
    omega

/-- A node in shape that holds something holds an entry of its own. -/
theorem Shaped.size_pos (shaped : Shaped capacities height node) (some : node.toList ≠ []) :
    0 < node.size := by
  cases shaped with
  | leaf fits counted => exact List.length_pos_iff.mpr some
  | branch fits separated => exact separated

/-- The leftmost trail leads to the first entry, if there is one. -/
theorem Shaped.leftmost_leads (shaped : Shaped capacities height node)
    (some : node.toList ≠ []) :
    ∃ trail, node.leftmost = .ok trail ∧ Trail.Leads node trail 0 := by
  obtain ⟨trail, descended, leads⟩ := shaped.descend_first (shaped.size_pos some)
  exact ⟨trail, by simp [leftmost, descended, dropEmptyLeaf_eq leads], leads⟩

/-- The rightmost trail leads to the last entry, if there is one. -/
theorem Shaped.rightmost_leads (shaped : Shaped capacities height node)
    (some : node.toList ≠ []) :
    ∃ trail, node.rightmost = .ok trail ∧
      Trail.Leads node trail (node.toList.length - 1) := by
  obtain ⟨trail, descended, leads⟩ := shaped.descend_last (shaped.size_pos some)
  exact ⟨trail, by simp [rightmost, descended, dropEmptyLeaf_eq leads], leads⟩

/-- Without entries, both sides lead nowhere. -/
theorem Shaped.ends_empty (shaped : Shaped capacities height node) (none : node.toList = []) :
    node.leftmost = .ok [] ∧ node.rightmost = .ok [] := by
  rw [shaped.eq_empty_leaf none]
  exact ⟨rfl, rfl⟩

/-! ## Places -/

/-- Following numbers from a node in shape leads to some entry. -/
theorem follow_leads (shaped : Shaped capacities height node) {slot : Nat}
    {numbers : List Nat} {trail : Trail κ ν} (followed : node.follow slot numbers = .ok trail) :
    ∃ offset, Trail.Leads node trail offset := by
  induction numbers generalizing node height trail with
  | nil =>
    by_cases inside : slot < node.size
    · have stops : [⟨node, slot⟩] = trail := by simpa [follow, inside] using followed
      rw [← stops]
      cases shaped with
      | leaf fits counted => exact ⟨_, .leaf inside⟩
      | @branch height total entries children fits separated arity counted shaped filled =>
        have inside : slot < entries.length := inside
        have found : children[slot]? = some children[slot] :=
          List.getElem?_eq_getElem (by omega)
        exact ⟨_, .separator found inside⟩
    · simp [follow, inside] at followed
  | cons number rest inductionHypothesis =>
    cases shaped with
    | leaf fits counted => simp [follow, childAt] at followed
    | @branch height total entries children fits separated arity counted shaped filled =>
      cases found : children[number]? with
      | none => simp [follow, childAt, found] at followed
      | some child =>
        simp only [follow, childAt, found, Checked.ok_bind, Checked.bind_eq_ok] at followed
        obtain ⟨lower, followed, whole⟩ := followed
        obtain ⟨offset, leads⟩ :=
          inductionHypothesis (shaped child (List.mem_of_getElem? found)) followed
        have goes : ⟨.branch capacities.branch total entries children, number⟩ :: lower =
            trail := by simpa using whole
        rw [← goes]
        exact ⟨_, .child found leads⟩

/-- A trail that was followed has the numbers and the slot it was followed along. -/
theorem place_of_follow {slot : Nat} {numbers : List Nat} {trail : Trail κ ν}
    (followed : node.follow slot numbers = .ok trail) :
    ∃ place, Place.ofTrail trail = some place ∧ place.numbers = numbers ∧ place.slot = slot := by
  induction numbers generalizing node trail with
  | nil =>
    by_cases inside : slot < node.size
    · have stops : [⟨node, slot⟩] = trail := by simpa [follow, inside] using followed
      exact ⟨⟨[], slot, node⟩, by rw [← stops]; rfl, rfl, rfl⟩
    · simp [follow, inside] at followed
  | cons number rest inductionHypothesis =>
    simp only [follow, Checked.bind_eq_ok] at followed
    obtain ⟨child, _, lower, followed, whole⟩ := followed
    obtain ⟨place, taken, numbers, slot⟩ := inductionHypothesis followed
    have goes : ⟨node, number⟩ :: lower = trail := by simpa using whole
    refine ⟨{ place with numbers := number :: place.numbers }, ?_, by simp [numbers], slot⟩
    rw [← goes]
    exact Place.ofTrail_cons ⟨node, number⟩ taken

end Node

namespace Trail.Leads

variable {node : Node κ ν} {trail : Trail κ ν} {offset : Nat}

/-- A trail that leads to an entry has a place, and following the place gives the trail
back. -/
theorem place (leads : Leads node trail offset) :
    ∃ place, Place.ofTrail trail = some place ∧ place.trail node = .ok trail := by
  induction leads with
  | leaf inside =>
    exact ⟨_, rfl, by simp [Place.trail, Node.follow, Node.size, Node.entries, inside]⟩
  | separator found inside =>
    exact ⟨_, rfl, by simp [Place.trail, Node.follow, Node.size, Node.entries, inside]⟩
  | @child capacity total number offset entries children child rest found lower
      inductionHypothesis =>
    obtain ⟨place, taken, followed⟩ := inductionHypothesis
    refine ⟨{ place with numbers := number :: place.numbers }, ?_, ?_⟩
    · exact Place.ofTrail_cons ⟨.branch capacity total entries children, number⟩ taken
    · have followed : child.follow place.slot place.numbers = .ok rest := followed
      simp [Place.trail, Node.follow, Node.childAt, found, followed]

end Trail.Leads

end CountedBTree
