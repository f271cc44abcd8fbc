import CountedBTree.Proofs.StreamDecoding

/-!
# Hints and what is read

A hint announces how many bytes it takes to make something, so that a byte string that is too short
need not be read at all. Hints are put together by rules that are not part of this library either:
the hint of a length, the sum of two hints, and a guard against asking too deep. The hint for a
dictionary is that of a length and of anything behind it, which makes eight bytes and no upper
bound.

No length is read, however. A reader is asked for a flag, and behind each set one for a record of
three bytes and another flag. So it takes one byte and four more for each record, or all there are
if there are fewer. With eight bytes at hand that is eight or more just if there are two records.
Hence the lower bound is kept just if the hint comes from too deep to say anything, or the first two
flags are set. Bytes that begin with a clear flag are left behind it, however many they are. One
byte is the most that a hint for all byte strings can announce as its lower bound, and it cannot
announce an upper one.
-/

namespace CountedBTree

namespace EntryStream

variable {depth count available : Nat} {bytes : List UInt8}

/-! ## Counting the bytes of a stream -/

/-- The number of bytes that reading a stream takes away. -/
def taken (bytes : List UInt8) : Nat := bytes.length - (read bytes).2.length

/-- The flags before the first two records are set. -/
def TwoRecords (bytes : List UInt8) : Prop :=
  byteAt bytes 0 % 2 = 1 ∧ byteAt bytes 4 % 2 = 1

instance (bytes : List UInt8) : Decidable (TwoRecords bytes) :=
  inferInstanceAs (Decidable (byteAt bytes 0 % 2 = 1 ∧ byteAt bytes 4 % 2 = 1))

/-- A stream has some number of records just if as many flags are set. -/
theorem le_length_read_iff :
    count ≤ (read bytes).1.length ↔ ∀ number < count, byteAt bytes (4 * number) % 2 = 1 := by
  obtain ⟨records, sets, clear, decoded⟩ := read_records bytes
  rw [decoded, List.length_map, List.length_range]
  constructor
  · intro fewer number early
    exact sets number (Nat.lt_of_lt_of_le early fewer)
  · intro set
    by_contra more
    have ended := set records (Nat.lt_of_not_le more)
    simp [clear] at ended

/-- There are two records just if the first two flags are set. -/
theorem two_le_length_read_iff (bytes : List UInt8) :
    2 ≤ (read bytes).1.length ↔ TwoRecords bytes := by
  rw [le_length_read_iff]
  constructor
  · intro set
    exact ⟨set 0 (by decide), set 1 (by decide)⟩
  · rintro ⟨first, second⟩ number early
    obtain rfl | rfl : number = 0 ∨ number = 1 := by omega
    · exact first
    · exact second

/-- What is left of a stream begins behind its records and the flag that ends them. -/
theorem read_rest (bytes : List UInt8) :
    (read bytes).2 = bytes.drop (4 * (read bytes).1.length + 1) := by
  obtain ⟨records, _, _, decoded⟩ := read_records bytes
  simp [decoded]

/-- A stream takes the bytes of its records and of the flag that ends them, or all there are. -/
theorem taken_eq (bytes : List UInt8) :
    taken bytes = min bytes.length (4 * (read bytes).1.length + 1) := by
  rw [taken, read_rest, List.length_drop]
  omega

/-- Clear flags alone are left behind the first one. -/
theorem taken_clear (length : Nat) : taken (List.replicate length 0) = min length 1 := by
  have none : ¬ 1 ≤ (read (List.replicate length 0)).1.length := by
    rw [le_length_read_iff]
    intro set
    have first := set 0 (by decide)
    simp [byteAt] at first
  rw [taken_eq, List.length_replicate]
  omega

/-- Set flags alone are taken, as many as they are. -/
theorem taken_set (records : Nat) :
    taken (List.replicate (4 * records + 1) 1) = 4 * records + 1 := by
  have all : records ≤ (read (List.replicate (4 * records + 1) 1)).1.length := by
    rw [le_length_read_iff]
    intro number early
    have inside : 4 * number < 4 * records + 1 := by omega
    simp [byteAt, inside]
  rw [taken_eq, List.length_replicate]
  omega

/-! ## What can be announced -/

/-- A number of bytes that is no less than a hint's lower bound, and no more than its upper one if
it has one. -/
def WithinHint (hint : Nat × Option Nat) (count : Nat) : Prop :=
  hint.1 ≤ count ∧ ∀ most, hint.2 = some most → count ≤ most

/-- All byte strings that a hint finds long enough keep to it just if its lower bound is one byte or
none, and it has no upper bound. -/
theorem allKeep_iff (hint : Nat × Option Nat) :
    (∀ bytes : List UInt8, hint.1 ≤ bytes.length → WithinHint hint (taken bytes)) ↔
      hint.1 ≤ 1 ∧ hint.2 = none := by
  constructor
  · intro keep
    -- Clear flags alone take too few bytes for a lower bound, and set ones too many for an upper.
    constructor
    · have few := (keep (List.replicate hint.1 0) (by simp)).1
      rw [taken_clear] at few
      omega
    · cases upper : hint.2 with
      | none => rfl
      | some most =>
        have many := keep (List.replicate (4 * (hint.1 + most) + 1) 1) (by simp; omega)
        have exceeds := many.2 most upper
        rw [taken_set] at exceeds
        omega
  · rintro ⟨small, unbounded⟩ bytes enough
    refine ⟨?_, by simp [unbounded]⟩
    rw [taken_eq]
    omega

/-- A hint for a dictionary says nothing if it is asked for too deep, and that there is no less than
a length otherwise. -/
theorem withinHint_sizeHint_iff :
    WithinHint (sizeHint depth) count ↔ hintDepthLimit < depth ∨ lengthSize ≤ count := by
  by_cases deep : hintDepthLimit < depth <;> simp [WithinHint, sizeHint, deep]

/-- The bytes that two records and a flag take are within a hint for a dictionary, and those of
fewer records are not, also where no more are counted than there are. -/
theorem withinHint_records_iff (records : Nat) (enough : (sizeHint depth).1 ≤ available) :
    (WithinHint (sizeHint depth) (4 * records + 1) ↔ hintDepthLimit < depth ∨ 2 ≤ records) ∧
      (WithinHint (sizeHint depth) (min available (4 * records + 1)) ↔
        hintDepthLimit < depth ∨ 2 ≤ records) := by
  rw [withinHint_sizeHint_iff, withinHint_sizeHint_iff]
  by_cases deep : hintDepthLimit < depth
  · simp [deep]
  · have length : lengthSize ≤ available := by simpa [sizeHint, deep] using enough
    unfold lengthSize at length ⊢
    omega

end EntryStream

open EntryStream

/-! ## Hints from elsewhere -/

/-- What hints are put together with: the hint of a length when it is asked for at some depth, that
of one thing and another behind it, and one that is asked for a level deeper. -/
structure HintRules where
  length : Nat → Nat × Option Nat
  both : Nat × Option Nat → Nat × Option Nat → Nat × Option Nat
  guarded : Nat → (Nat → Nat × Option Nat) → Nat × Option Nat

namespace HintRules

variable {rules : HintRules}

/-- What is documented of the rules. -/
structure Documented (rules : HintRules) : Prop where
  /-- A length takes a machine word. -/
  length : ∀ depth, rules.length depth = (lengthSize, some lengthSize)
  /-- Bounds add up, and there is an upper one if there are two. -/
  both : ∀ first second, rules.both first second =
    (first.1 + second.1, first.2.bind (fun most => second.2.map (most + ·)))
  /-- Past a limit nothing is said. -/
  guarded : ∀ depth ask, rules.guarded depth ask =
    if depth > hintDepthLimit then (0, none) else ask (depth + 1)

/-- The hint for a dictionary: a length, and anything behind it. -/
def announced (rules : HintRules) (depth : Nat) : Nat × Option Nat :=
  rules.guarded depth (fun deeper => rules.both (rules.length deeper) (0, none))

/-- Documented rules announce one hint at each depth. -/
theorem Documented.announced_eq (documented : rules.Documented) (depth : Nat) :
    rules.announced depth = sizeHint depth := by
  simp [announced, sizeHint, documented.guarded, documented.both, documented.length]

/-- Rules that are what is documented. -/
def standard : HintRules where
  length _ := (lengthSize, some lengthSize)
  both first second := (first.1 + second.1, first.2.bind (fun most => second.2.map (most + ·)))
  guarded depth ask := if depth > hintDepthLimit then (0, none) else ask (depth + 1)

theorem standard_documented : standard.Documented where
  length _ := rfl
  both _ _ := rfl
  guarded _ _ := rfl

end HintRules

namespace ByteReader

variable {σ : Type} {reader : ByteReader σ} {unread : σ → List UInt8} {state final : σ}
variable {entries : List (UInt8 × UInt16)} {rules : HintRules}

/-! ## Counting what a reader is asked for -/

/-- A reader that counts the bytes it is asked for: one for a flag, one for a key and two for a
value. -/
def counted (reader : ByteReader σ) : ByteReader (σ × Nat) where
  flag | (state, asked) => ((reader.flag state).1, (reader.flag state).2, asked + 1)
  key | (state, asked) => ((reader.key state).1, (reader.key state).2, asked + 1)
  value | (state, asked) => ((reader.value state).1, (reader.value state).2, asked + 2)

/-- A reader hands out the same when it is counted. It has been asked for four bytes with each
entry, and for the flag that is not set. -/
theorem Yields.counted (yields : reader.Yields state entries final) (asked : Nat) :
    reader.counted.Yields (state, asked) entries (final, asked + (4 * entries.length + 1)) := by
  -- Each record starts with its own account, so the induction is for any.
  induction yields generalizing asked with
  | ended clear => exact .ended clear
  | @goesOn state final entries set rest inductionHypothesis =>
    have further := inductionHypothesis (asked + 4)
    have total : asked + 4 + (4 * entries.length + 1) = asked + (4 * (entries.length + 1) + 1) := by
      omega
    rw [total] at further
    exact .goesOn set further

/-- At every depth, whatever bytes a documented reader starts with, if they are as many as the lower
bound that is announced there, then one dictionary is built. The reader is asked for one byte and
four more for each entry, and takes as many, or all there are. Both numbers are within the hint just
if that was asked for too deep, or the first two flags are set. So all byte strings keep to the hint
just if it was asked for too deep. -/
theorem hint_isKept_iff (ruled : rules.Documented) (documented : reader.Documented unread)
    (stamp : Stamp) (depth : Nat) :
    (∀ start, (rules.announced depth).1 ≤ (unread start).length →
      ∃ entries made final asked,
        reader.counted.Builds (start, 0) stamp entries made (final, asked) ∧
        read (unread start) = (entries, unread final) ∧
        (readDictionary (unread start) stamp).outcome = .ok (made, unread final) ∧
        asked = 4 * entries.length + 1 ∧
        (unread start).length - (unread final).length = min (unread start).length asked ∧
        (WithinHint (rules.announced depth) asked ↔
          hintDepthLimit < depth ∨ TwoRecords (unread start)) ∧
        (WithinHint (rules.announced depth) ((unread start).length - (unread final).length) ↔
          hintDepthLimit < depth ∨ TwoRecords (unread start))) ∧
      ((∀ bytes : List UInt8, (rules.announced depth).1 ≤ bytes.length →
        WithinHint (rules.announced depth) (taken bytes)) ↔ hintDepthLimit < depth) := by
  rw [ruled.announced_eq]
  constructor
  · intro start enough
    obtain ⟨final, yields, left⟩ := documented.yields start
    have took := taken_eq (unread start)
    have counted := yields.counted 0
    have twoRecords := two_le_length_read_iff (unread start)
    have decoded : read (unread start) = ((read (unread start)).1, unread final) := by rw [left]
    have few := documented.few start
    rw [taken, ← left] at took
    -- From here on only the number of entries counts, not the bytes they were read from.
    generalize (read (unread start)).1 = entries at counted decoded took twoRecords few
    obtain ⟨made, contents, mapped, _⟩ := ofList_answers few stamp
    obtain ⟨askedWithin, takenWithin⟩ := withinHint_records_iff entries.length enough
    rw [Nat.zero_add] at counted
    refine ⟨entries, made, final, _, ⟨counted, fun _ _ => counted.unique, mapped⟩, decoded, ?_, rfl,
      took, ?_, ?_⟩
    · simp only [readDictionary, decoded, Traced.outcome_bind, mapped]
      rfl
    · rw [askedWithin, twoRecords]
    · rw [took, takenWithin, twoRecords]
  · rw [allKeep_iff]
    by_cases deep : hintDepthLimit < depth <;> simp [sizeHint, deep, lengthSize]

/-- The two records in eight bytes are asked for in nine, and take all eight. Asked for too deep,
the hint says nothing, and one byte asked for beyond an empty string keeps to it. -/
theorem hint_isKept_iff_twoRecords :
    HintRules.standard.Documented ∧ ofBytes.Documented Subtype.val ∧
      (HintRules.standard.announced 0 = (8, none) ∧
        (∃ made final, ofBytes.counted.Builds (⟨[1, 7, 1, 2, 3, 9, 5, 0], by decide⟩, 0) ⟨0⟩
            [(7, 513), (9, 5)] made (final, 9) ∧ final.val = []) ∧
        WithinHint (HintRules.standard.announced 0) 9 ∧
        WithinHint (HintRules.standard.announced 0) 8) ∧
      (HintRules.standard.announced 21 = (0, none) ∧
        (∃ made final, ofBytes.counted.Builds (⟨[], by decide⟩, 0) ⟨0⟩ [] made (final, 1) ∧
          final.val = []) ∧
        WithinHint (HintRules.standard.announced 21) 1 ∧
        WithinHint (HintRules.standard.announced 21) 0) := by
  refine ⟨HintRules.standard_documented, ofBytes_documented, ⟨rfl, ?_⟩, ⟨rfl, ?_⟩⟩
  · have kept := hint_isKept_iff HintRules.standard_documented ofBytes_documented ⟨0⟩ 0
    obtain ⟨entries, made, final, asked, builds, decoded, _, rfl, _, askedWithin,
      takenWithin⟩ := kept.1 ⟨[1, 7, 1, 2, 3, 9, 5, 0], by decide⟩ (by decide)
    obtain ⟨rfl, left⟩ := Prod.mk.inj decoded
    rw [← left] at takenWithin
    exact ⟨⟨made, final, builds, left.symm⟩, askedWithin.mpr (by decide),
      takenWithin.mpr (by decide)⟩
  · have kept := hint_isKept_iff HintRules.standard_documented ofBytes_documented ⟨0⟩ 21
    obtain ⟨entries, made, final, asked, builds, decoded, _, rfl, _, askedWithin, takenWithin⟩ :=
      kept.1 ⟨[], by decide⟩ (by decide)
    obtain ⟨rfl, left⟩ := Prod.mk.inj decoded
    rw [← left] at takenWithin
    exact ⟨⟨made, final, builds, left.symm⟩, askedWithin.mpr (by decide),
      takenWithin.mpr (by decide)⟩

/-- Eight clear bytes are as many as the lower bound, but the first one ends the stream. One byte is
asked for and taken, and seven are left. So not all byte strings keep to the hint. -/
theorem hint_isMissed :
    HintRules.standard.Documented ∧ ofBytes.Documented Subtype.val ∧
      HintRules.standard.announced 0 = (8, none) ∧ (List.replicate 8 (0 : UInt8)).length = 8 ∧
      (∃ made final,
        ofBytes.counted.Builds (⟨List.replicate 8 0, by decide⟩, 0) ⟨0⟩ [] made (final, 1) ∧
          final.val = List.replicate 7 0 ∧
          (readDictionary (List.replicate 8 0) ⟨0⟩).outcome = .ok (made, List.replicate 7 0)) ∧
      taken (List.replicate 8 0) = 1 ∧ ¬ WithinHint (HintRules.standard.announced 0) 1 ∧
      ¬ ∀ depth (bytes : List UInt8), (HintRules.standard.announced depth).1 ≤ bytes.length →
        WithinHint (HintRules.standard.announced depth) (taken bytes) := by
  have missed : ¬ WithinHint (HintRules.standard.announced 0) 1 := by
    rintro ⟨few, _⟩
    contradiction
  have yields : ofBytes.counted.Yields (⟨List.replicate 8 0, by decide⟩, 0) []
      (⟨List.replicate 7 0, by decide⟩, 1) := .ended rfl
  refine ⟨HintRules.standard_documented, ofBytes_documented, rfl, rfl,
    ⟨_, _, ⟨yields, fun _ _ => yields.unique, rfl⟩, rfl, rfl⟩, rfl, missed, ?_⟩
  intro keep
  exact missed (keep 0 (List.replicate 8 0) (by decide))

end ByteReader

end CountedBTree
