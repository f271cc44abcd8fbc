import CountedBTree.EntryStream
import CountedBTree.Proofs.BulkConstruction

/-!
# Dictionaries from bytes

The bytes are a piece of memory, and come from a reader that is not part of this library. What is
relied on is what such a reader documents: a flag is the lowest bit of a byte, a key is one byte, a
value two bytes with the low one first, and past the end all bytes are zero. Nothing is assumed of
how often it is asked. A dictionary is made by asking for a flag, and then for a key and a value,
until a flag is not set.

Since there are only zeros past the end, some flag is not set, and asking comes to an end whatever
the bytes are. A record begins at every fourth byte up to there, and one that is cut short is filled
up with zeros. So reading gives back the records that were written, and leaves what was written
behind them. There are no more records than bytes, and so fewer than a generation counts. Nodes with
such keys and values fit into memory, so the records are mapped without a refusal.
-/

namespace CountedBTree

namespace EntryStream

/-! ## Records by their places -/

/-- The byte at a place, zero past the end. -/
def byteAt (bytes : List UInt8) (place : Nat) : UInt8 := bytes.getD place 0

/-- The entry of a record, behind the flag at every fourth byte. -/
def recordAt (bytes : List UInt8) (number : Nat) : UInt8 × UInt16 :=
  (byteAt bytes (4 * number + 1),
    word (byteAt bytes (4 * number + 2)) (byteAt bytes (4 * number + 3)))

/-- The bytes of some records, each with its flag. -/
def encode (records : List (UInt8 × UInt8 × UInt16)) : List UInt8 :=
  records.flatMap (fun (flag, key, value) =>
    [flag, key, UInt8.ofNat (value.toNat % 256), UInt8.ofNat (value.toNat / 256)])

/-- Bytes behind the first ones are bytes at later places. -/
theorem byteAt_drop (bytes : List UInt8) (skipped place : Nat) :
    byteAt (bytes.drop skipped) place = byteAt bytes (skipped + place) := by
  simp [byteAt, List.getD]

/-- A word counts its high byte by 256. -/
theorem toNat_word (low high : UInt8) : (word low high).toNat = low.toNat + 256 * high.toNat := by
  have lowFits := low.toNat_lt
  have highFits := high.toNat_lt
  have scale : (256 : UInt16).toNat = 256 := rfl
  simp only [word, UInt16.toNat_add, UInt16.toNat_mul, UInt8.toNat_toUInt16, scale]
  omega

/-- A word is made up of its two bytes. -/
theorem word_of_bytes (value : UInt16) :
    word (UInt8.ofNat (value.toNat % 256)) (UInt8.ofNat (value.toNat / 256)) = value := by
  have fits := value.toNat_lt
  apply UInt16.toNat_inj.mp
  simp only [toNat_word, UInt8.toNat_ofNat']
  omega

/-- The lowest bit of a byte is clear or set. -/
theorem flag_cases (flag : UInt8) : flag % 2 = 0 ∨ flag % 2 = 1 := by
  rcases Nat.mod_two_eq_zero_or_one flag.toNat with even | odd
  · left
    exact UInt8.toNat_inj.mp even
  · right
    exact UInt8.toNat_inj.mp odd

/-- A clear flag ends the stream behind it, and behind a set one there is a record, filled up with
zeros if the bytes end before it does. -/
theorem read_eq (bytes : List UInt8) :
    read bytes =
      if byteAt bytes 0 % 2 = 0 then ([], bytes.drop 1)
      else (recordAt bytes 0 :: (read (bytes.drop 4)).1, (read (bytes.drop 4)).2) := by
  match bytes with
  | [] => rfl
  | [flag] => by_cases clear : flag % 2 = 0 <;> simp [read, byteAt, recordAt, word, clear]
  | [flag, key] => by_cases clear : flag % 2 = 0 <;> simp [read, byteAt, recordAt, word, clear]
  | [flag, key, low] => by_cases clear : flag % 2 = 0 <;> simp [read, byteAt, recordAt, clear]
  | flag :: key :: low :: high :: more =>
    by_cases clear : flag % 2 = 0 <;> simp [read, byteAt, recordAt, clear]

/-- What holds of bytes that begin with a clear flag, and of those that begin with a record if it
holds behind that, holds of all bytes. Past the end all flags are clear, so a set one has a byte to
take away. -/
theorem bytes_induction {holds : List UInt8 → Prop}
    (ended : ∀ bytes, byteAt bytes 0 % 2 = 0 → holds bytes)
    (goesOn : ∀ bytes, byteAt bytes 0 % 2 = 1 → holds (bytes.drop 4) → holds bytes)
    (bytes : List UInt8) : holds bytes := by
  induction length : bytes.length using Nat.strong_induction_on generalizing bytes with
  | h size inductionHypothesis =>
    rcases flag_cases (byteAt bytes 0) with clear | set
    · exact ended bytes clear
    · apply goesOn bytes set
      have some : bytes ≠ [] := by
        rintro rfl
        contradiction
      have longer := List.length_pos_of_ne_nil some
      exact inductionHypothesis _ (by rw [List.length_drop]; omega) (bytes.drop 4) rfl

/-- Records behind the first one are records of the bytes behind it. -/
theorem recordAt_drop (bytes : List UInt8) (number : Nat) :
    recordAt (bytes.drop 4) number = recordAt bytes (number + 1) := by
  have places (inside : Nat) : 4 + (4 * number + inside) = 4 * (number + 1) + inside := by omega
  simp only [recordAt, byteAt_drop, places]

/-- A stream consists of the records with a set flag up to the first clear one. -/
theorem read_records (bytes : List UInt8) :
    ∃ count, (∀ number < count, byteAt bytes (4 * number) % 2 = 1) ∧
      byteAt bytes (4 * count) % 2 = 0 ∧
      read bytes = ((List.range count).map (recordAt bytes), bytes.drop (4 * count + 1)) := by
  induction bytes using bytes_induction with
  | ended bytes clear =>
    refine ⟨0, by simp, clear, ?_⟩
    rw [read_eq, if_pos clear]
    rfl
  | goesOn bytes set inductionHypothesis =>
    obtain ⟨count, sets, clear, rest⟩ := inductionHypothesis
    have flags (number : Nat) :
        byteAt (bytes.drop 4) (4 * number) = byteAt bytes (4 * (number + 1)) := by
      rw [byteAt_drop, Nat.add_comm, Nat.mul_succ]
    refine ⟨count + 1, ?_, flags count ▸ clear, ?_⟩
    · intro number early
      cases number with
      | zero => exact set
      | succ number => exact flags number ▸ sets number (Nat.lt_of_succ_lt_succ early)
    · have behind : 4 + (4 * count + 1) = 4 * (count + 1) + 1 := by omega
      rw [read_eq, if_neg (by simp [set]), rest, List.drop_drop, behind, List.range_succ_eq_map]
      simp [recordAt_drop]

/-- Every record takes a byte at least. -/
theorem length_read_le (bytes : List UInt8) : (read bytes).1.length ≤ bytes.length := by
  induction bytes using bytes_induction with
  | ended bytes clear =>
    rw [read_eq, if_pos clear]
    exact Nat.zero_le _
  | goesOn bytes set inductionHypothesis =>
    have some : bytes ≠ [] := by
      rintro rfl
      contradiction
    have longer := List.length_pos_of_ne_nil some
    rw [List.length_drop] at inductionHypothesis
    rw [read_eq, if_neg (by simp [set]), List.length_cons]
    omega

/-- Records that were written are read, and no more than that. -/
theorem read_encode {records : List (UInt8 × UInt8 × UInt16)} {ending : UInt8}
    (trailing : List UInt8) (sets : ∀ record ∈ records, record.1 % 2 = 1)
    (clear : ending % 2 = 0) :
    read (encode records ++ ending :: trailing) = (records.map Prod.snd, trailing) := by
  induction records with
  | nil =>
    rw [encode, List.flatMap_nil, List.nil_append, read_eq, if_pos (by simpa [byteAt] using clear)]
    rfl
  | cons record records inductionHypothesis =>
    obtain ⟨flag, key, value⟩ := record
    obtain ⟨set, further⟩ := List.forall_mem_cons.mp sets
    have rest := inductionHypothesis further
    rw [encode] at rest ⊢
    simp [read, set, rest, word_of_bytes]

/-- The entries of a byte string, and the bytes behind them. -/
structure Decodes (bytes : List UInt8) (entries : List (UInt8 × UInt16)) (rest : List UInt8) :
    Prop where
  /-- They are the records at every fourth byte, up to the first flag that is not set. -/
  records : ∃ count, (∀ number < count, byteAt bytes (4 * number) % 2 = 1) ∧
    byteAt bytes (4 * count) % 2 = 0 ∧
    entries = (List.range count).map (recordAt bytes) ∧ rest = bytes.drop (4 * count + 1)
  /-- They are what was written, and what was written behind it. -/
  written : ∀ records ending trailing, (∀ record ∈ records, record.1 % 2 = 1) → ending % 2 = 0 →
    bytes = encode records ++ ending :: trailing →
      entries = records.map Prod.snd ∧ rest = trailing

/-- A stream reads the entries of its bytes. -/
theorem read_decodes (bytes : List UInt8) : Decodes bytes (read bytes).1 (read bytes).2 where
  records := by
    obtain ⟨count, sets, clear, decoded⟩ := read_records bytes
    rw [decoded]
    exact ⟨count, sets, clear, rfl, rfl⟩
  written := by
    rintro records ending trailing sets clear rfl
    rw [read_encode trailing sets clear]
    exact ⟨rfl, rfl⟩

end EntryStream

open EntryStream

/-! ## Readers of bytes -/

/-- What reads flags, keys and values off some bytes. What its states are is left open. -/
structure ByteReader (σ : Type) where
  flag : σ → Bool × σ
  key : σ → UInt8 × σ
  value : σ → UInt16 × σ

namespace ByteReader

variable {σ : Type} {reader : ByteReader σ} {unread : σ → List UInt8} {state final other : σ}
variable {entries others : List (UInt8 × UInt16)}

/-- What is documented of a reader, told by the bytes that a state has not read yet. -/
structure Documented (reader : ByteReader σ) (unread : σ → List UInt8) : Prop where
  /-- The bytes are a piece of memory. -/
  fits : ∀ state, (unread state).length < pieceLimit
  /-- A flag is the lowest bit of a byte. -/
  flag : ∀ state, (reader.flag state).1 = decide (byteAt (unread state) 0 % 2 = 1)
  behindFlag : ∀ state, unread (reader.flag state).2 = (unread state).drop 1
  key : ∀ state, (reader.key state).1 = byteAt (unread state) 0
  behindKey : ∀ state, unread (reader.key state).2 = (unread state).drop 1
  /-- A value has its low byte first. -/
  value : ∀ state, (reader.value state).1.toNat =
    (byteAt (unread state) 0).toNat + 256 * (byteAt (unread state) 1).toNat
  behindValue : ∀ state, unread (reader.value state).2 = (unread state).drop 2

/-- The entry behind a flag. -/
def record (reader : ByteReader σ) (state : σ) : (UInt8 × UInt16) × σ :=
  let (key, behindKey) := reader.key (reader.flag state).2
  let (value, behindValue) := reader.value behindKey
  ((key, value), behindValue)

/-- The entries that a reader hands out as long as it reads a set flag, and the state it is left
in. -/
inductive Yields (reader : ByteReader σ) : σ → List (UInt8 × UInt16) → σ → Prop where
  | ended {state : σ} (clear : (reader.flag state).1 = false) :
      Yields reader state [] (reader.flag state).2
  | goesOn {state final : σ} {entries : List (UInt8 × UInt16)}
      (set : (reader.flag state).1 = true)
      (rest : Yields reader (reader.record state).2 entries final) :
      Yields reader state ((reader.record state).1 :: entries) final

/-- A reader hands out one list of entries and is left in one state. -/
theorem Yields.unique (yields : reader.Yields state entries final)
    (again : reader.Yields state others other) : others = entries ∧ other = final := by
  induction yields generalizing others other with
  | ended clear =>
    cases again with
    | ended => exact ⟨rfl, rfl⟩
    | goesOn set => simp [set] at clear
  | goesOn set rest inductionHypothesis =>
    cases again with
    | ended clear => simp [set] at clear
    | goesOn _ further =>
      obtain ⟨rfl, rfl⟩ := inductionHypothesis further
      exact ⟨rfl, rfl⟩

/-- Behind a flag a documented reader finds the record there, and goes on behind that. -/
theorem Documented.record_eq (documented : reader.Documented unread) (state : σ) :
    (reader.record state).1 = recordAt (unread state) 0 ∧
      unread (reader.record state).2 = (unread state).drop 4 := by
  constructor
  · apply Prod.ext
    · simp only [record, recordAt, documented.key, documented.behindFlag, byteAt_drop]
    · apply UInt16.toNat_inj.mp
      simp only [record, recordAt, documented.value, documented.behindKey, documented.behindFlag,
        byteAt_drop, toNat_word]
  · simp only [record, documented.behindValue, documented.behindKey, documented.behindFlag,
      List.drop_drop]

/-- Whatever the bytes are, a documented reader comes to an end, and has read what a stream of them
reads. -/
theorem Documented.yields (documented : reader.Documented unread) (state : σ) :
    ∃ final, reader.Yields state (read (unread state)).1 final ∧
      unread final = (read (unread state)).2 := by
  induction bytes : unread state using bytes_induction generalizing state with
  | ended start clear =>
    subst bytes
    have ended : (reader.flag state).1 = false := by simp [documented.flag, clear]
    rw [read_eq, if_pos clear]
    exact ⟨_, .ended ended, documented.behindFlag state⟩
  | goesOn start set inductionHypothesis =>
    subst bytes
    have goesOn : (reader.flag state).1 = true := by simp [documented.flag, set]
    obtain ⟨entry, behind⟩ := documented.record_eq state
    obtain ⟨final, yields, left⟩ := inductionHypothesis _ behind
    rw [read_eq, if_neg (by simp [set]), ← entry]
    exact ⟨final, .goesOn goesOn yields, left⟩

/-- A dictionary is built from a reader by mapping the entries that it hands out, of which there is
one list only, and leaves it in one state. -/
structure Builds (reader : ByteReader σ) (start : σ) (stamp : Stamp)
    (entries : List (UInt8 × UInt16)) (made : Dictionary UInt8 UInt16) (final : σ) : Prop where
  yields : reader.Yields start entries final
  only : ∀ others other, reader.Yields start others other → others = entries ∧ other = final
  mapped : (Dictionary.ofList entries stamp).outcome = .ok made

/-- A piece of memory has fewer records than a generation counts. -/
theorem Documented.few (documented : reader.Documented unread) (state : σ) :
    (read (unread state)).1.length < Fault.wordLimit :=
  Nat.lt_trans (Nat.lt_of_le_of_lt (length_read_le _) (documented.fits state)) (by decide)

/-- There is room for every list of entries that can be counted. -/
theorem ofList_answers {entries : List (UInt8 × UInt16)} (few : entries.length < Fault.wordLimit)
    (stamp : Stamp) :
    ∃ made contents, (Dictionary.ofList entries stamp).outcome = .ok made ∧
      Increasing contents ∧ Extends entries [] contents ∧ made.Answers contents := by
  obtain ⟨contents, increasing, extended, admits⟩ := Dictionary.ofList_collects entries stamp
  have leaf : checkLeafCapacity UInt8 UInt16 Capacities.standard.leaf = .ok () := by decide
  have branch : checkBranchCapacity UInt8 UInt16 Capacities.standard.branch = .ok () := by decide
  have free : Capacities.standard.roomToBuild entries = .ok () := by
    refine Checked.both_open.mpr ⟨leaf, Capacities.roomAlong_eq_ok.mpr ⟨fun _ => ?_, ?_⟩⟩
    · rwa [length_countsAfter, Nat.zero_add]
    · exact fun _ _ => .inr branch
  obtain ⟨made, ran, answers⟩ := admits.answers free
  exact ⟨made, contents, ran, increasing, extended, answers⟩

/-- Whatever bytes a documented reader starts with, it builds one dictionary. Its entries are the
records of the bytes up to the first clear flag, mapped in order, so keys increase and each has the
last value given; a record that is cut short is filled up with zeros. The reader has read just
that, and the dictionary is the same if it is not asked for any more. In particular, records that
were written are read back, and the bytes behind them are left. -/
theorem stream_isDecoded (documented : reader.Documented unread) (start : σ) (stamp : Stamp) :
    ∃ entries made final, reader.Builds start stamp entries made final ∧
      Decodes (unread start) entries (unread final) ∧
      (∃ contents, Increasing contents ∧ Extends entries [] contents ∧ made.Answers contents) ∧
      read (unread start) = (entries, unread final) ∧
      (readDictionary (unread start) stamp).outcome = .ok (made, unread final) ∧
      (readAll (unread start) stamp).outcome = .ok made := by
  obtain ⟨final, yields, left⟩ := documented.yields start
  have decodes := read_decodes (unread start)
  have decoded : read (unread start) = ((read (unread start)).1, unread final) := by rw [left]
  have few := documented.few start
  generalize (read (unread start)).1 = entries at yields decodes decoded few
  rw [← left] at decodes
  obtain ⟨made, contents, mapped, increasing, extended, answers⟩ := ofList_answers few stamp
  have ran : (readDictionary (unread start) stamp).outcome = .ok (made, unread final) := by
    simp only [readDictionary, decoded, Traced.outcome_bind, mapped]
    rfl
  refine ⟨entries, made, final, ⟨yields, fun _ _ => yields.unique, mapped⟩, decodes,
    ⟨contents, increasing, extended, answers⟩, decoded, ran, ?_⟩
  rw [readAll, Traced.outcome_bind, ran]
  rfl

/-- A byte string in one piece of memory. -/
def ByteString : Type := { bytes : List UInt8 // bytes.length < pieceLimit }

/-- The bytes behind the first ones. -/
def ByteString.drop (bytes : ByteString) (skipped : Nat) : ByteString :=
  ⟨bytes.val.drop skipped, Nat.lt_of_le_of_lt (List.length_drop ▸ Nat.sub_le _ _) bytes.property⟩

/-- A reader whose states are the bytes not read yet. -/
def ofBytes : ByteReader ByteString where
  flag bytes := (decide (byteAt bytes.val 0 % 2 = 1), bytes.drop 1)
  key bytes := (byteAt bytes.val 0, bytes.drop 1)
  value bytes := (word (byteAt bytes.val 0) (byteAt bytes.val 1), bytes.drop 2)

theorem ofBytes_documented : ofBytes.Documented Subtype.val where
  fits bytes := bytes.property
  flag _ := rfl
  behindFlag _ := rfl
  key _ := rfl
  behindKey _ := rfl
  value bytes := toNat_word (byteAt bytes.val 0) (byteAt bytes.val 1)
  behindValue _ := rfl

/-- A key that repeats in a record cut short between the bytes of its value, and records followed
by two bytes more. -/
theorem stream_isDecoded_cutShort :
    ofBytes.Documented Subtype.val ∧
      (∃ made final,
        ofBytes.Builds ⟨[1, 7, 1, 2, 3, 9, 5, 0, 255, 7, 4], by decide⟩ ⟨0⟩
            [(7, 513), (9, 5), (7, 4)] made final ∧
          final.val = [] ∧ made.Answers [(7, 4), (9, 5)]) ∧
      ∃ made final,
        ofBytes.Builds ⟨encode [(1, 7, 513), (3, 9, 5)] ++ 2 :: [11, 12], by decide⟩ ⟨0⟩
            [(7, 513), (9, 5)] made final ∧
          final.val = [11, 12] := by
  refine ⟨ofBytes_documented, ?_, ?_⟩
  · obtain ⟨entries, made, final, builds, _, ⟨contents, _, _, answers⟩, decoded, ran, _⟩ :=
      stream_isDecoded ofBytes_documented
        ⟨[1, 7, 1, 2, 3, 9, 5, 0, 255, 7, 4], by decide⟩ ⟨0⟩
    obtain ⟨rfl, left⟩ := Prod.mk.inj decoded
    have gathered : (readDictionary [1, 7, 1, 2, 3, 9, 5, 0, 255, 7, 4] ⟨0⟩).outcome.map
        (fun answer => answer.1.entries) = .ok (.ok [(7, 4), (9, 5)]) := by cbv
    have answered : (readDictionary [1, 7, 1, 2, 3, 9, 5, 0, 255, 7, 4] ⟨0⟩).outcome =
        .ok (made, final.val) := ran
    rw [answered] at gathered
    obtain rfl := Except.ok.inj (answers.gathered.symm.trans (Except.ok.inj gathered))
    exact ⟨made, final, builds, left.symm, answers⟩
  · obtain ⟨entries, made, final, builds, decodes, _⟩ :=
      stream_isDecoded ofBytes_documented
        ⟨encode [(1, 7, 513), (3, 9, 5)] ++ 2 :: [11, 12], by decide⟩ ⟨0⟩
    obtain ⟨rfl, rest⟩ := decodes.written [(1, 7, 513), (3, 9, 5)] 2 [11, 12] (by simp) rfl rfl
    exact ⟨made, final, builds, rest⟩

end ByteReader

end CountedBTree
