import CountedBTree.Proofs.Interleaving
import CountedBTree.Proofs.TreeReading

/-!
# Ranges of keys

Two bounds need not be in order, and several equal keys may lie on either side of one. A bound
becomes an offset through one of the two counts of its key, the smaller keys or those that are
not greater, and the offset of the upper bound is moved up to that of the lower one. What lies
between the two offsets is then exactly what satisfies both bounds.

When no key can lie between the bounds, the offsets meet. The sweep over them supplies nothing.
-/

namespace CountedBTree

variable {α κ ν : Type}

/-- The yes answers of a run that is cut stand at the offsets below their number. -/
theorem Cut.holds_iff {holds : α → Bool} {run : List α} {offset : Nat} {item : α}
    (cut : Cut holds run) (present : run[offset]? = some item) :
    holds item = true ↔ offset < run.countP holds := by
  constructor
  · intro yes
    by_contra past
    have behind : item ∈ run.drop (run.countP holds) := by
      apply List.mem_of_getElem? (i := offset - run.countP holds)
      rw [List.getElem?_drop, Nat.add_sub_of_le (Nat.not_lt.mp past)]
      exact present
    have no := cut.drop_countP item behind
    simp [yes] at no
  · intro before
    apply cut.take_countP
    apply List.mem_of_getElem? (i := offset)
    rw [List.getElem?_take_of_lt before]
    exact present

/-- The sweep supplies the run: from the front, from the back in the opposite order, and to
every script of requests at both ends. -/
structure Sweep.Supplies (sweep : Sweep κ ν) (run : List (κ × ν)) : Prop where
  remaining_eq : sweep.remaining = run.length
  forwards : sweep.toList = .ok run
  backwards : ∃ after, Sweep.source.restBack sweep = .ok (run.reverse, after)
  served : ∀ script, Sweep.source.pullAll script sweep = TwoEnded.ofList.pullAll script run

/-- A sweep supplies the run that it stands for. -/
theorem Sweep.Covers.supplies {capacities : Capacities} {height : Nat} {root : Node κ ν}
    {sweep : Sweep κ ν} {run : List (κ × ν)} (covers : sweep.Covers root run)
    (shaped : Node.Shaped capacities height root) : sweep.Supplies run := by
  have stands := Sweep.source_stands shaped
  obtain ⟨after, gathered, _⟩ := TwoEnded.rest_eq stands covers
  obtain ⟨afterBack, gatheredBack, _⟩ := TwoEnded.restBack_eq stands covers
  constructor
  case remaining_eq => exact stands.remaining sweep run covers
  case forwards => simp [Sweep.toList, gathered]
  case backwards => exact ⟨afterBack, gatheredBack⟩
  case served =>
    intro script
    exact TwoEnded.pullAll_eq stands script covers

variable [Ord κ]

namespace Tree

/-- The range between two bounds goes over the entries at the offsets from one up to another.
These are the entries whose keys satisfy both bounds. -/
structure RangesOver (tree : Tree κ ν) (low high : Bound κ) (offsets : OffsetRange)
    (sweep : Sweep κ ν) : Prop where
  offsets_eq : tree.offsetsBetween low high = .ok offsets
  made : tree.sweepBetween low high = .ok sweep
  start_le : offsets.start ≤ offsets.stop
  stop_le : offsets.stop ≤ tree.size
  inside_iff : ∀ offset entry, tree.toList[offset]? = some entry →
    ((low.allowsFrom entry.1 && high.allowsUpTo entry.1) = true ↔
      offsets.start ≤ offset ∧ offset < offsets.stop)
  slice_eq : entriesBetween low high tree.toList = slice tree.toList offsets.start offsets.stop
  supplies : sweep.Supplies (entriesBetween low high tree.toList)

/-- A range has as many entries as offsets. -/
theorem RangesOver.length_eq [Footprint κ] [Footprint ν] {tree : Tree κ ν} {low high : Bound κ}
    {offsets : OffsetRange} {sweep : Sweep κ ν}
    (rangesOver : tree.RangesOver low high offsets sweep) (sound : tree.Sound) :
    (entriesBetween low high tree.toList).length = offsets.stop - offsets.start := by
  have inside := rangesOver.stop_le
  rw [size_eq sound] at inside
  rw [rangesOver.slice_eq, CountedBTree.slice_eq, List.length_drop, List.length_take,
    Nat.min_eq_left inside]

end Tree

namespace Bound

variable {low high : Bound κ}

/-- Whether no key can lie between two bounds: the lower one is behind the upper one, or both
are at equal keys and one of them excludes its own. -/
def crosses : Bound κ → Bound κ → Bool
  | included start, included stop => (compare start stop).isGT
  | included start, excluded stop => (compare start stop).isGE
  | excluded start, included stop => (compare start stop).isGE
  | excluded start, excluded stop => (compare start stop).isGE
  | unbounded, _ => false
  | _, unbounded => false

variable [Std.TransOrd κ]

/-- No key satisfies bounds that cross. -/
theorem not_between_of_crosses (crossed : low.crosses high = true) (key : κ) :
    (low.allowsFrom key && high.allowsUpTo key) = false := by
  by_contra between
  rw [Bool.not_eq_false, Bool.and_eq_true] at between
  obtain ⟨begun, lasts⟩ := between
  match low, high with
  | included start, included stop =>
    simp only [crosses, allowsFrom, allowsUpTo] at crossed begun lasts
    have behind : (compare start key).isLE = true := Std.OrientedCmp.isGE_iff_isLE.mp begun
    have inOrder : (compare start stop).isLE = true := Std.TransCmp.isLE_trans behind lasts
    cases order : compare start stop <;> simp [order] at crossed inOrder
  | included start, excluded stop =>
    simp only [crosses, allowsFrom, allowsUpTo] at crossed begun lasts
    have reversed : (compare stop start).isLE = true := Std.OrientedCmp.isGE_iff_isLE.mp crossed
    have before : compare key stop = .lt := by simpa using lasts
    simp [Std.TransCmp.lt_of_lt_of_isLE before reversed] at begun
  | excluded start, included stop =>
    simp only [crosses, allowsFrom, allowsUpTo] at crossed begun lasts
    have reversed : (compare stop start).isLE = true := Std.OrientedCmp.isGE_iff_isLE.mp crossed
    have notBehind : (compare key start).isLE = true := Std.TransCmp.isLE_trans lasts reversed
    cases order : compare key start <;> simp [order] at begun notBehind
  | excluded start, excluded stop =>
    simp only [crosses, allowsFrom, allowsUpTo] at crossed begun lasts
    have reversed : (compare stop start).isLE = true := Std.OrientedCmp.isGE_iff_isLE.mp crossed
    have before : compare key stop = .lt := by simpa using lasts
    simp [Std.TransCmp.lt_of_lt_of_isLE before reversed] at begun

end Bound

variable [Std.TransOrd κ]

/-- No entry of a run satisfies bounds that cross. -/
theorem entriesBetween_of_crosses {low high : Bound κ} (crossed : low.crosses high = true)
    (entries : List (κ × ν)) : entriesBetween low high entries = [] := by
  apply List.filter_eq_nil_iff.mpr
  intro entry _
  simp [Bound.not_between_of_crosses crossed entry.1]

/-- The entries at the offsets between two bounds are those whose keys satisfy both. -/
theorem Ascending.between_iff {entries : List (κ × ν)} (ascending : Ascending entries)
    (low high : Bound κ) {offset : Nat} {entry : κ × ν} (present : entries[offset]? = some entry) :
    (low.allowsFrom entry.1 && high.allowsUpTo entry.1) = true ↔
      (OffsetRange.inSorted (entries.map Prod.fst) low high).start ≤ offset ∧
        offset < (OffsetRange.inSorted (entries.map Prod.fst) low high).stop := by
  have ruledOut := (ascending.cut_ruledOut low).holds_iff present
  have letIn := (ascending.cut_letIn high).holds_iff present
  rw [OffsetRange.inSorted_eq, Bool.and_eq_true, letIn]
  cases begun : low.allowsFrom entry.1 with
  | true =>
    have past := mt ruledOut.mpr (by simp [begun])
    simp only [true_and]
    omega
  | false =>
    have before := ruledOut.mp (by simp [begun])
    simp only [Bool.false_eq_true, false_and, false_iff]
    omega

namespace Tree

variable [Footprint κ] [Footprint ν] {tree : Tree κ ν}

/-- Between any two bounds, a sound tree goes over the offsets found in the list of its keys. -/
theorem ranges_over (sound : tree.Sound) (low high : Bound κ) :
    ∃ sweep, tree.RangesOver low high
      (OffsetRange.inSorted (tree.toList.map Prod.fst) low high) sweep := by
  obtain ⟨height, shaped⟩ := sound.shaped
  obtain ⟨sweep, made, covers⟩ := sweepBetween_covers sound low high
  refine ⟨sweep, ?_⟩
  constructor
  case offsets_eq => exact offsetsBetween_eq sound low high
  case made => exact made
  case start_le =>
    rw [OffsetRange.inSorted_eq]
    exact Nat.le_max_right _ _
  case stop_le =>
    rw [OffsetRange.inSorted_eq, size_eq sound]
    exact Nat.max_le.mpr ⟨List.countP_le_length, List.countP_le_length⟩
  case inside_iff =>
    intro offset entry present
    exact sound.ascending.between_iff low high present
  case slice_eq =>
    rw [CountedBTree.slice_eq]
    exact sound.ascending.entriesBetween_inSorted low high
  case supplies => exact covers.supplies shaped

variable {capacities : Capacities}

/-- In every tree that a run leads to, the two counts of a key are exact, and so is the range
between any two bounds: it supplies the entries whose keys satisfy both, in their order, each at
one offset. Between bounds that cross it supplies nothing. -/
theorem range_isExact (reached : tree.Reached capacities) :
    (∀ key, tree.countLess key =
        .ok (tree.toList.countP (fun entry => (compare entry.1 key).isLT)) ∧
      tree.countNotGreater key =
        .ok (tree.toList.countP (fun entry => (compare entry.1 key).isLE))) ∧
    ∀ low high, ∃ offsets sweep, tree.RangesOver low high offsets sweep ∧
      (low.crosses high = true → offsets.start = offsets.stop ∧ sweep.Supplies []) := by
  have sound := reached.isSound
  constructor
  · intro key
    exact ⟨countLess_eq sound key, countNotGreater_eq sound key⟩
  · intro low high
    obtain ⟨sweep, rangesOver⟩ := ranges_over sound low high
    refine ⟨_, sweep, rangesOver, fun crossed => ?_⟩
    have nothing := entriesBetween_of_crosses crossed tree.toList
    have none := rangesOver.length_eq sound
    rw [nothing, List.length_nil] at none
    constructor
    · exact Nat.le_antisymm rangesOver.start_le (Nat.sub_eq_zero_iff_le.mp none.symm)
    · rw [← nothing]
      exact rangesOver.supplies

/-- Equal keys on both sides of the bounds: behind the keys equal to one and up to those equal
to two there are five entries, from two leaves and two branches. Bounds that exclude the same
key from both sides, and bounds out of order, leave nothing. -/
theorem range_isExact_spread :
    spread.Reached ⟨2, 2⟩ ∧ spread.countLess 2 = .ok 2 ∧ spread.countNotGreater 2 = .ok 7 ∧
      (∃ sweep, spread.RangesOver (.excluded 1) (.included 2) ⟨2, 7⟩ sweep ∧
        sweep.Supplies [(2, 0), (2, 2), (2, 4), (2, 6), (2, 7)]) ∧
      (∃ sweep, spread.RangesOver (.excluded 2) (.excluded 2) ⟨7, 7⟩ sweep ∧
        sweep.Supplies []) ∧
      ∃ sweep, spread.RangesOver (.included 3) (.excluded 2) ⟨7, 7⟩ sweep ∧ sweep.Supplies [] := by
  obtain ⟨counts, ranges⟩ := range_isExact spread_reached
  refine ⟨spread_reached, (counts 2).1, (counts 2).2, ?_, ?_, ?_⟩
  · obtain ⟨offsets, sweep, rangesOver, _⟩ := ranges (.excluded 1) (.included 2)
    obtain rfl : ⟨2, 7⟩ = offsets := Except.ok.inj rangesOver.offsets_eq
    exact ⟨sweep, rangesOver, rangesOver.supplies⟩
  · obtain ⟨offsets, sweep, rangesOver, crossed⟩ := ranges (.excluded 2) (.excluded 2)
    obtain rfl : ⟨7, 7⟩ = offsets := Except.ok.inj rangesOver.offsets_eq
    exact ⟨sweep, rangesOver, (crossed rfl).2⟩
  · obtain ⟨offsets, sweep, rangesOver, crossed⟩ := ranges (.included 3) (.excluded 2)
    obtain rfl : ⟨7, 7⟩ = offsets := Except.ok.inj rangesOver.offsets_eq
    exact ⟨sweep, rangesOver, (crossed rfl).2⟩

end Tree

end CountedBTree
