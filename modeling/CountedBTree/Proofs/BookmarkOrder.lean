import CountedBTree.Proofs.BookmarkValidity
import CountedBTree.Proofs.PlaceOrder

/-!
# The order of bookmarks

Two bookmarks of one state are ordered like the offsets they mark: their places are, and the
end marks the size, which is past the offset of every entry. The distance from one to the
other is the difference of the offsets, so it has the sign of their order and adds up along a
way over a third bookmark.

The state that two bookmarks share may be gone, because the dictionary was written to, copied
over or dropped. The bookmarks still mark offsets of what the dictionary held in that state.
Along a run, every bookmark therefore has an issuer, a dictionary that some session of a run
held, and bookmarks with one stamp have the same. Bookmarks of different states have no order:
neither may be compared with the other, and a write separates all bookmarks issued before it
from those that the written dictionary accepts.
-/

namespace CountedBTree

variable {κ ν : Type}

namespace Bookmark

/-- Every comparison of the two is refused. -/
def Incomparable (left right : Bookmark κ ν) : Prop :=
  left.order right = .error .incomparableBookmarks ∧
    right.order left = .error .incomparableBookmarks

variable {left right : Bookmark κ ν}

/-- Bookmarks are of one state when stamp and generation agree. -/
theorem sameState_iff : left.sameState right = true ↔
    left.state = right.state ∧ left.generation = right.generation := by
  simp [sameState]

/-- Bookmarks of different states are incomparable. -/
theorem incomparable_of_apart (apart : left.sameState right = false) :
    left.Incomparable right := by
  have apartToo : right.sameState left = false := by
    rw [Bool.eq_false_iff, ne_eq, sameState_iff] at apart ⊢
    exact fun ⟨state, generation⟩ => apart ⟨state.symm, generation.symm⟩
  simp [Incomparable, order, apart, apartToo]

end Bookmark

namespace Dictionary

variable {dictionary : Dictionary κ ν} {left right third : Bookmark κ ν}
variable {offset otherOffset thirdOffset : Nat}

/-- A dictionary that accepts one of two bookmarks accepts the other just if they are of one
state. -/
theorem accepts_of_sameState (accepted : dictionary.accepts left = true) :
    dictionary.accepts right = true ↔ left.sameState right = true := by
  obtain ⟨state, generation⟩ := accepts_iff.mp accepted
  rw [accepts_iff, Bookmark.sameState_iff, state, generation]
  exact and_congr eq_comm eq_comm

/-- The dictionary has offsets for both bookmarks and orders them like the offsets. The end
is greater than every entry and equal to itself, and the distance from the first bookmark to
the second is to zero as the second is to the first. -/
structure Orders (dictionary : Dictionary κ ν) (left right : Bookmark κ ν)
    (offset otherOffset : Nat) : Prop where
  offset_eq : dictionary.offsetOf left = .ok offset
  otherOffset_eq : dictionary.offsetOf right = .ok otherOffset
  order_eq : left.order right = .ok (compare offset otherOffset)
  swap_eq : right.order left = .ok (compare otherOffset offset)
  finish_eq : left.isEnd = true → left.order right = .ok (if right.isEnd then .eq else .gt)
  distance_eq : ∃ steps, dictionary.distance left right = .ok steps ∧
    compare 0 steps = compare offset otherOffset

section Marked

variable [Ord κ] [Footprint κ] [Footprint ν]

/-- The distance between marked offsets is their difference. -/
theorem distance_eq (sound : dictionary.tree.Sound) (marks : dictionary.Marks left offset)
    (otherMarks : dictionary.Marks right otherOffset) :
    dictionary.distance left right = .ok (otherOffset - offset : Int) := by
  simp [distance, offsetOf_eq sound marks, offsetOf_eq sound otherMarks]

/-- The order of two bookmarks is that of the offsets they mark. -/
theorem order_eq (sound : dictionary.tree.Sound) (marks : dictionary.Marks left offset)
    (otherMarks : dictionary.Marks right otherOffset) :
    left.order right = .ok (compare offset otherOffset) := by
  obtain ⟨height, shaped⟩ := sound.shaped
  have same := (accepts_of_sameState marks.1).mp otherMarks.1
  have counted : dictionary.size = dictionary.tree.root.toList.length := shaped.total_eq
  obtain ⟨_, ⟨atEnd, rfl⟩ | ⟨place, there, leads⟩⟩ := marks
  · obtain ⟨_, ⟨otherAtEnd, rfl⟩ | ⟨otherPlace, otherThere, otherLeads⟩⟩ := otherMarks
    · simp [Bookmark.order, same, atEnd, otherAtEnd]
    · have inside := otherLeads.offset_lt shaped
      have greater : compare dictionary.size otherOffset = .gt :=
        Nat.compare_eq_gt.mpr (by omega)
      simp [Bookmark.order, same, atEnd, otherThere, greater]
  · obtain ⟨_, ⟨otherAtEnd, rfl⟩ | ⟨otherPlace, otherThere, otherLeads⟩⟩ := otherMarks
    · have inside := leads.offset_lt shaped
      have less : compare offset dictionary.size = .lt := Nat.compare_eq_lt.mpr (by omega)
      simp [Bookmark.order, same, there, otherAtEnd, less]
    · simp [Bookmark.order, same, there, otherThere, leads.compare_eq otherLeads shaped]

/-- A difference of offsets is to zero as the offsets are to each other. -/
theorem compare_zero_sub (offset otherOffset : Nat) :
    compare (0 : Int) (otherOffset - offset) = compare offset otherOffset := by
  rcases Nat.lt_trichotomy offset otherOffset with less | rfl | greater
  · rw [Nat.compare_eq_lt.mpr less, compare_lt_iff_lt]
    omega
  · rw [Nat.compare_eq_eq.mpr rfl, Int.sub_self]
    rfl
  · rw [Nat.compare_eq_gt.mpr greater, compare_gt_iff_gt]
    omega

/-- A sound dictionary orders the bookmarks that mark offsets of it. -/
theorem Marks.orders (marks : dictionary.Marks left offset)
    (otherMarks : dictionary.Marks right otherOffset) (sound : dictionary.tree.Sound) :
    dictionary.Orders left right offset otherOffset where
  offset_eq := offsetOf_eq sound marks
  otherOffset_eq := offsetOf_eq sound otherMarks
  order_eq := order_eq sound marks otherMarks
  swap_eq := order_eq sound otherMarks marks
  finish_eq := by
    intro atEnd
    have same := (accepts_of_sameState marks.1).mp otherMarks.1
    have none : left.place = none := Option.isNone_iff_eq_none.mp atEnd
    cases there : right.place <;> simp [Bookmark.order, same, none, there, Bookmark.isEnd]
  distance_eq := ⟨_, distance_eq sound marks otherMarks, compare_zero_sub offset otherOffset⟩

end Marked

end Dictionary

namespace DictionarySession

variable [Ord κ] [Footprint κ] [Footprint ν] [SampleKey κ] [SampleValue ν] [BEq κ] [BEq ν]
variable [Listed κ] [Listed ν]

/-- Some session that a run leads to holds the dictionary. -/
def Occurs (dictionary : Dictionary κ ν) : Prop :=
  ∃ session : DictionarySession κ ν, session.Reached ∧
    ∃ name, session.dictionaries.get? name = some dictionary

/-- Every stamp of a bookmark has one issuer, and a dictionary with a stamp is the issuer of
the bookmarks with that stamp. -/
structure Issuers (session : DictionarySession κ ν) (issuer : Stamp → Option (Dictionary κ ν)) :
    Prop where
  marks : ∀ {mark bookmark}, session.bookmarks.get? mark = some bookmark →
    ∃ dictionary offset, issuer bookmark.state = some dictionary ∧ Occurs dictionary ∧
      dictionary.Marks bookmark offset
  current : ∀ {name held}, session.dictionaries.get? name = some held →
    issuer held.state = some held

variable {session after : DictionarySession κ ν} {command : DictionaryCommand κ ν}
variable {reply : Reply κ ν}

/-- A move adds the dictionaries there are after it to the issuers. -/
theorem Issuers.move [Std.TransOrd κ] {issuer : Stamp → Option (Dictionary κ ν)}
    (issuers : session.Issuers issuer) (reached : session.Reached)
    (moves : session.Moves command reply after) : ∃ later, after.Issuers later := by
  classical
  have goesOn := reached.move moves
  have coherent := goesOn.coherent
  obtain ⟨stamp, unused, ran⟩ := moves
  -- A stamp given out again belongs to no bookmark, so the newer dictionary takes its place.
  let later (state : Stamp) : Option (Dictionary κ ν) :=
    if there : ∃ held name, after.dictionaries.get? name = some held ∧ held.state = state then
      some there.choose
    else issuer state
  have current : ∀ {name held}, after.dictionaries.get? name = some held →
      later held.state = some held := by
    intro name held present
    have there : ∃ other name, after.dictionaries.get? name = some other ∧
      other.state = held.state := ⟨held, name, present, rfl⟩
    obtain ⟨otherName, otherPresent, same⟩ := there.choose_spec
    simp only [later, there, ↓reduceDIte]
    rw [coherent.agree otherPresent present same]
  refine ⟨later, ?_, current⟩
  intro mark bookmark marked
  by_cases there : ∃ held name, after.dictionaries.get? name = some held ∧
      held.state = bookmark.state
  · obtain ⟨held, name, present, same⟩ := there
    obtain ⟨offset, marks⟩ := coherent.marks marked present same.symm
    exact ⟨held, offset, same ▸ current present, ⟨after, goesOn, name, present⟩, marks⟩
  · rcases (step_effect ran).bookmark_origin marked with
      ⟨earlier, marked⟩ | ⟨unchanged, name, wanted, held, present, issued⟩
    · obtain ⟨dictionary, offset, issuing, occurs, marks⟩ := issuers.marks marked
      exact ⟨dictionary, offset, by simp only [later, there, ↓reduceDIte, issuing], occurs, marks⟩
    · obtain ⟨offset, marks⟩ := (reached.coherent.offer stamp).request_marks present issued
      exact absurd ⟨held, name, unchanged ▸ present, (Dictionary.accepts_iff.mp marks.1).1.symm⟩
        there

/-- In every session that a run leads to, each bookmark has an issuer. -/
theorem Reached.issuers [Std.TransOrd κ] (reached : session.Reached) :
    ∃ issuer, session.Issuers issuer := by
  induction reached with
  | start =>
    refine ⟨fun _ => none, ?_, ?_⟩
    · intro mark bookmark marked
      simp [empty, Registers.empty, Registers.get?] at marked
    · intro name held present
      simp [empty, Registers.empty, Registers.get?] at present
  | move before moves inductionHypothesis =>
    obtain ⟨issuer, issuers⟩ := inductionHypothesis
    exact issuers.move before moves

/-- The dictionary orders three bookmarks of it, and the distance from the first to the last
is that over the one between them. -/
structure OrdersAll (dictionary : Dictionary κ ν) (left right third : Bookmark κ ν) : Prop where
  orders : ∃ offset otherOffset, dictionary.Orders left right offset otherOffset
  ordersOn : ∃ offset otherOffset, dictionary.Orders right third offset otherOffset
  adds : ∃ near far, dictionary.distance left right = .ok near ∧
    dictionary.distance right third = .ok far ∧ dictionary.distance left third = .ok (near + far)

/-- Bookmarks of one state are ordered by the dictionary that issued them, and any dictionary
in that state is this one. -/
theorem Reached.ordersAll [Std.TransOrd κ] (reached : session.Reached)
    {first second third : String} {left right other : Bookmark κ ν}
    (leftMarked : session.bookmarks.get? first = some left)
    (rightMarked : session.bookmarks.get? second = some right)
    (otherMarked : session.bookmarks.get? third = some other)
    (same : left.sameState right = true) (sameToo : right.sameState other = true) :
    ∃ dictionary, Occurs dictionary ∧ OrdersAll dictionary left right other ∧
      ∀ name held, session.dictionaries.get? name = some held → held.accepts left = true →
        held = dictionary := by
  obtain ⟨issuer, issuers⟩ := reached.issuers
  obtain ⟨dictionary, offset, issuing, occurs, marks⟩ := issuers.marks leftMarked
  obtain ⟨rightIssuer, rightOffset, rightIssuing, _, rightMarks⟩ := issuers.marks rightMarked
  obtain ⟨otherIssuer, otherOffset, otherIssuing, _, otherMarks⟩ := issuers.marks otherMarked
  have stamps := (Bookmark.sameState_iff.mp same).1
  have stampsToo := (Bookmark.sameState_iff.mp sameToo).1
  obtain rfl : dictionary = rightIssuer :=
    Option.some.inj ((stamps ▸ issuing).symm.trans rightIssuing)
  obtain rfl : dictionary = otherIssuer :=
    Option.some.inj ((stampsToo ▸ rightIssuing).symm.trans otherIssuing)
  obtain ⟨earlier, reachedEarlier, name, present⟩ := occurs
  have sound := reachedEarlier.coherent.sound present
  refine ⟨dictionary, ⟨earlier, reachedEarlier, name, present⟩, ⟨?_, ?_, ?_⟩, ?_⟩
  · exact ⟨_, _, marks.orders rightMarks sound⟩
  · exact ⟨_, _, rightMarks.orders otherMarks sound⟩
  · refine ⟨_, _, Dictionary.distance_eq sound marks rightMarks,
      Dictionary.distance_eq sound rightMarks otherMarks, ?_⟩
    rw [Dictionary.distance_eq sound marks otherMarks]
    congr 1
    omega
  · intro name held present accepted
    have stamp := (Dictionary.accepts_iff.mp accepted).1
    exact Option.some.inj ((stamp ▸ issuers.current present).symm.trans issuing)

/-- A write separates the bookmarks of the dictionary from those that it accepts afterwards. -/
theorem Lineage.incomparable [Std.TransOrd κ] {origin name : String}
    {final : DictionarySession κ ν} {left : Bookmark κ ν} {issuer : Dictionary κ ν}
    (lineage : Lineage left session origin true final name) (reached : session.Reached)
    (present : session.dictionaries.get? origin = some issuer)
    (accepted : issuer.accepts left = true) :
    ∃ written, final.dictionaries.get? name = some written ∧
      ∀ right, written.accepts right = true → left.Incomparable right := by
  obtain ⟨written, held, rejected⟩ := lineage.accepts_iff reached present accepted
  refine ⟨written, held, fun right acceptsRight => Bookmark.incomparable_of_apart ?_⟩
  rw [Bool.eq_false_iff]
  intro same
  have sameBack : right.sameState left = true := by
    rw [Bookmark.sameState_iff] at same ⊢
    exact ⟨same.1.symm, same.2.symm⟩
  rw [(Dictionary.accepts_of_sameState acceptsRight).mpr sameBack] at rejected
  exact Bool.noConfusion rejected

/-- The order of positions is that of their offsets. In every tree that a run leads to, places
are ordered like the offsets of their entries. Places of any trees are totally ordered, and
equal in this order just if they are equal. In every session that a run leads to, bookmarks of
one state are ordered by the dictionary that issued them like their offsets, with distances to
match, and bookmarks of different states are incomparable: those that a dictionary rejects and
those that it accepts, and those from before and from after a write. -/
theorem order_isPositional [Std.TransOrd κ] {α β : Type} [Ord α] [Std.TransOrd α]
    [Footprint α] [Footprint β] {capacities : Capacities} {tree : Tree α β}
    (reachedTree : tree.Reached capacities) (reached : session.Reached) :
    tree.Ordered ∧
    (∀ left right third : Place κ ν, compare right left = (compare left right).swap ∧
      ((compare left right).isLE = true ∨ (compare right left).isLE = true) ∧
      ((compare left right).isLE = true → (compare right left).isLE = true →
        (left == right) = true) ∧
      ((compare left right).isLE = true → (compare right third).isLE = true →
        (compare left third).isLE = true) ∧
      (compare left right = .eq ↔ (left == right) = true)) ∧
    (∀ {first second third left right other}, session.bookmarks.get? first = some left →
      session.bookmarks.get? second = some right → session.bookmarks.get? third = some other →
      left.sameState right = true → right.sameState other = true →
      ∃ dictionary, Occurs dictionary ∧ OrdersAll dictionary left right other ∧
        ∀ name held, session.dictionaries.get? name = some held → held.accepts left = true →
          held = dictionary) ∧
    (∀ {left right : Bookmark κ ν}, left.sameState right = false → left.Incomparable right) ∧
    (∀ {name held left right}, session.dictionaries.get? name = some held →
      held.accepts left = true → (held.accepts right = true ↔ left.sameState right = true)) ∧
    ∀ {origin name issuer left final}, session.dictionaries.get? origin = some issuer →
      issuer.accepts left = true → Lineage left session origin true final name →
      ∃ written, final.dictionaries.get? name = some written ∧
        ∀ right, written.accepts right = true → left.Incomparable right := by
  refine ⟨reachedTree.isSound.ordered, Place.compare_total, ?_, ?_, ?_, ?_⟩
  · intro first second third left right other leftMarked rightMarked otherMarked same sameToo
    exact reached.ordersAll leftMarked rightMarked otherMarked same sameToo
  · intro left right apart
    exact Bookmark.incomparable_of_apart apart
  · intro name held left right _ accepted
    exact Dictionary.accepts_of_sameState accepted
  · intro origin name issuer left final present accepted lineage
    exact lineage.incomparable reached present accepted

/-- Places on two levels of a tree, the middle and the end of three entries, and a bookmark
from before a write beside one from after it. -/
theorem order_isPositional_sample :
    let session := (empty : DictionarySession Int Int).attemptAll
      [.create "left" ⟨4, 4⟩, .insert "left" 1 10, .insert "left" 2 20, .insert "left" 3 30,
        .issue "left" (.key 2) "middle", .issue "left" .finish "end"]
    let written := session.attemptAll [.insert "left" 4 40]
    let issued := written.attemptAll [.issue "left" .start "first"]
    Tree.spread.Reached ⟨2, 2⟩ ∧ session.Reached ∧
      (∃ left right, Tree.spread.placeAt 4 = .ok left ∧ Tree.spread.placeAt 5 = .ok right ∧
        compare left right = .lt) ∧
      ∃ middle last first, session.bookmarks.get? "middle" = some middle ∧
        session.bookmarks.get? "end" = some last ∧ middle.order last = .ok .lt ∧
        issued.bookmarks.get? "first" = some first ∧ middle.Incomparable first := by
  intro session written issued
  have start : session.Reached ∧ session.Counts := attemptAll_reached _ .start empty_counts
  have middleMarked : session.bookmarks.get? "middle" = some _ := rfl
  have lastMarked : session.bookmarks.get? "end" = some _ := rfl
  have firstMarked : issued.bookmarks.get? "first" = some _ := rfl
  have present : session.dictionaries.get? "left" = some _ := rfl
  have writeMoves : session.Moves (.insert "left" 4 40) _ written :=
    ⟨session.fresh, start.2.unused _, rfl⟩
  have lineage : Lineage _ session "left" true written "left" :=
    (Lineage.here ⟨"middle", middleMarked⟩).wrote writeMoves ⟨"middle", rfl⟩ rfl
  obtain ⟨ordered, _, issuedBy, _, _, separated⟩ :=
    order_isPositional Tree.spread_reached start.1
  obtain ⟨left, leftAt, leftOffset⟩ := ordered.offsets 4 (by decide)
  obtain ⟨right, rightAt, rightOffset⟩ := ordered.offsets 5 (by decide)
  obtain ⟨dictionary, _, ordersAll, unique⟩ :=
    issuedBy middleMarked lastMarked lastMarked rfl rfl
  obtain ⟨offset, otherOffset, orders⟩ := ordersAll.orders
  obtain rfl := unique "left" _ present rfl
  obtain rfl : 1 = offset := Except.ok.inj orders.offset_eq
  obtain rfl : 3 = otherOffset := Except.ok.inj orders.otherOffset_eq
  obtain ⟨found, held, apart⟩ := separated present rfl lineage
  obtain rfl := Option.some.inj held
  exact ⟨Tree.spread_reached, start.1, ⟨left, right, leftAt, rightAt,
    ordered.compare_eq leftOffset rightOffset⟩, _, _, _, middleMarked, lastMarked,
    orders.order_eq, firstMarked, apart _ rfl⟩

end DictionarySession

end CountedBTree
