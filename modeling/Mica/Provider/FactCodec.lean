import Mica.Kernel.Metadata
import Mica.Lib.ByteMap
import Mica.Var.RoundTrip

/-!
# Provider/FactCodec — stored facts

A fact is stored under the eight big-endian bytes of its relation followed by its encoded tuple, and
the tuple is stored again as the value: a big-endian count and the values by name.

* `encodeTuple_eq_ok` — what the encoder writes, and when it does.
* `decodeTuple_eq` — decoding a record under another symbol table imports its values one by one.
* `factKey_injective` — in one process, one key belongs to one fact.
-/

open OrderCode List

namespace Mica

/-- How writing or reading a record ends other than with one.  `capacityOverflow` is the panic of a
byte vector that would pass `isize::MAX`, `panic` that of a slice index or an `unwrap`. -/
inductive RecordError where
  | lengthExceedsU32 (len : ℕ)
  | capacityOverflow
  | value (fault : Fault)
  | offsetOverflow
  | endedEarly (need offset len : ℕ)
  | trailingBytes (count : ℕ)
  | factKeyLength (len : ℕ)
  | relationIdentity
  | panic
  | unnamedSymbol (id : ℕ)
  | invalidMagic
  | invalidUtf8
  | invalidBool (value : ℕ)
  | identityOutOfRange (raw : ℕ)
  /-- "unknown {record} tag {tag}". -/
  | unknownTag (record : String) (tag : ℕ)
  | invalidBufferDurability
  | invalidBufferConflictPolicy
  | invalidBufferDelta (error : DeltaError)
  deriving DecidableEq

/-- An error that the source returns: no panic, and no nested read that did not end. -/
def RecordError.Returned (e : RecordError) : Prop :=
  e ≠ .panic ∧ e ≠ .capacityOverflow ∧ e ≠ .value .panic ∧ e ≠ .value .outOfFuel

/-! ## Writing -/

section Write

variable (T : SymbolTable)

/-- `write_u32`. -/
def writeU32 (out : Bytes) (value : ℕ) : Except RecordError Bytes :=
  if value < 2 ^ 32 then .ok (out ++ toBE 4 value) else .error (.lengthExceedsU32 value)

def encodeTupleValues : Tuple → Bytes → Except RecordError Bytes
  | [], out => .ok out
  | v :: tuple, out =>
    match encodeValueWithOptions T .default v out with
    | .ok out => encodeTupleValues tuple out
    | .error e => .error (.value (.error e))

/-- `encode_tuple`. -/
def encodeTuple (tuple : Tuple) (out : Bytes) : Except RecordError Bytes := do
  let out ← writeU32 out tuple.length
  let out ← encodeTupleValues T tuple out
  if out.length ≤ isizeMax then .ok out else .error .capacityOverflow

/-- `fact_key`. -/
def factKey (relation : RelationId) (tuple : Tuple) : Except RecordError Bytes :=
  encodeTuple T tuple (toBE 8 relation.raw.toNat)

/-- `encode_tuple_record`. -/
def encodeTupleRecord (tuple : Tuple) : Except RecordError Bytes := encodeTuple T tuple []

end Write

section WriteSpec

variable {T : SymbolTable}

theorem encodeTupleValues_eq_ok : ∀ {tuple : Tuple} {out r : Bytes},
    encodeTupleValues T tuple out = .ok r ↔
      ∃ cells, wireValues T .default (tuple.map Value.raw) = .ok cells ∧ r = out ++ cells
  | [], out, r => by
    constructor
    · rintro ⟨⟩
      exact ⟨[], rfl, (append_nil out).symm⟩
    · rintro ⟨cells, ⟨⟩, rfl⟩
      rw [append_nil, encodeTupleValues]
  | v :: tuple, out, r => by
    rw [encodeTupleValues, encodeValueWithOptions_eq, map_cons, wireValues]
    cases hv : wire T .default v.raw with
    | error e =>
      constructor
      · rintro ⟨⟩
      · rintro ⟨cells, ⟨⟩, -⟩
    | ok a =>
      simp only [Except.map]
      rw [encodeTupleValues_eq_ok]
      constructor
      · rintro ⟨cells, hcells, rfl⟩
        exact ⟨a ++ cells, by rw [hcells]; rfl, append_assoc _ _ _⟩
      · rintro ⟨cells, hcells, rfl⟩
        obtain ⟨a', b, ha, hb, rfl⟩ := cat_eq_ok hcells
        cases ha
        exact ⟨b, hb, (append_assoc _ _ _).symm⟩

/-- **What the tuple encoder writes**: the count and the values, while they fit a vector. -/
theorem encodeTuple_eq_ok {tuple : Tuple} {out r : Bytes} : encodeTuple T tuple out = .ok r ↔
    tuple.length < 2 ^ 32 ∧ r.length ≤ isizeMax ∧
      ∃ cells, wireValues T .default (tuple.map Value.raw) = .ok cells ∧
        r = out ++ (toBE 4 tuple.length ++ cells) := by
  unfold encodeTuple writeU32
  split
  · next hlen =>
    constructor
    · intro h
      obtain ⟨_, ⟨⟩, h⟩ := bind_eq_ok h
      obtain ⟨out', hout, h⟩ := bind_eq_ok h
      obtain ⟨cells, hcells, rfl⟩ := encodeTupleValues_eq_ok.mp hout
      split at h
      · next hsize =>
        cases h
        exact ⟨hlen, hsize, cells, hcells, append_assoc _ _ _⟩
      · cases h
    · rintro ⟨-, hsize, cells, hcells, rfl⟩
      rw [← append_assoc] at hsize ⊢
      have hout : encodeTupleValues T tuple (out ++ toBE 4 tuple.length) = .ok _ :=
        encodeTupleValues_eq_ok.mpr ⟨cells, hcells, rfl⟩
      simp only [bind, Except.bind, hout, if_pos hsize]
  · next hlen =>
    constructor
    · intro h
      cases h
    · exact fun h => absurd h.1 hlen

end WriteSpec

/-! ## Reading -/

section Read

variable (bytes : Bytes)

/-- `&self.bytes[start..stop]`. -/
def recordSlice (start stop : ℕ) : Except RecordError Bytes :=
  if start ≤ stop ∧ stop ≤ bytes.length then .ok ((bytes.drop start).take (stop - start))
  else .error .panic

/-- `Reader::read_exact`. -/
def readRecordExact (len : ℕ) (st : ReaderState) : Except RecordError (Bytes × ReaderState) :=
  if st.offset + len < wordLimit then
    if bytes.length < st.offset + len then .error (.endedEarly len st.offset bytes.length)
    else do
      let run ← recordSlice bytes st.offset (st.offset + len)
      .ok (run, { st with offset := st.offset + len })
  else .error .offsetOverflow

/-- A big-endian number of `w` bytes; the conversion to an array of that size is an `unwrap`. -/
def readRecordNumber (w : ℕ) (st : ReaderState) : Except RecordError (ℕ × ReaderState) := do
  let (run, st) ← readRecordExact bytes w st
  if run.length = w then .ok (ofBE run, st) else .error .panic

/-- `Reader::read_len`, a `u32`. -/
def readRecordLen (st : ReaderState) : Except RecordError (ℕ × ReaderState) :=
  readRecordNumber bytes 4 st

/-- `Reader::read_value`: decode from the rest of the slice, then step over what was consumed. -/
def readRecordValue (st : ReaderState) : Except RecordError (Value × ReaderState) := do
  let rest ← recordSlice bytes st.offset bytes.length
  match decodeValueWithOptions st.table .default rest with
  | .ok (v, consumed, table) => .ok (v, ⟨st.offset + consumed, table⟩)
  | .error fault => .error (.value fault)

def readRecordValues : ℕ → ReaderState → Except RecordError (Tuple × ReaderState)
  | 0, st => .ok ([], st)
  | n + 1, st => do
    let (v, st) ← readRecordValue bytes st
    let (tuple, st) ← readRecordValues n st
    .ok (v :: tuple, st)

/-- `decode_tuple`: `read_tuple`, then `expect_end`. -/
def decodeTuple (T : SymbolTable) : Except RecordError (Tuple × SymbolTable) := do
  let (arity, st) ← readRecordLen bytes ⟨0, T⟩
  let (tuple, st) ← readRecordValues bytes arity st
  if st.offset = bytes.length then .ok (tuple, st.table)
  else .error (.trailingBytes (bytes.length - st.offset))

end Read

section ReadSpec

variable {E : SymbolTable}

theorem readRecordExact_eq {bytes before run after : Bytes} (hbytes : bytes.length ≤ isizeMax)
    (heq : bytes = before ++ (run ++ after)) (T : SymbolTable) :
    readRecordExact bytes run.length ⟨before.length, T⟩
      = .ok (run, ⟨before.length + run.length, T⟩) := by
  have hlen : bytes.length = before.length + (run.length + after.length) := by
    rw [heq, length_append, length_append]
  have hword : before.length + run.length < wordLimit := by
    unfold isizeMax at hbytes
    unfold wordLimit
    omega
  have hdrop : (bytes.drop before.length).take run.length = run := by
    rw [heq, drop_left, take_left]
  have hfit : ¬bytes.length < before.length + run.length := by omega
  have hslice : recordSlice bytes before.length (before.length + run.length) = .ok run := by
    rw [recordSlice, if_pos ⟨by omega, by omega⟩, Nat.add_sub_cancel_left, hdrop]
  unfold readRecordExact
  rw [if_pos hword, if_neg hfit, hslice]
  rfl

theorem readRecordNumber_eq {bytes : Bytes} {w n : ℕ} (hbytes : bytes.length ≤ isizeMax)
    (hn : n < 256 ^ w) (before after : Bytes) (heq : bytes = before ++ (toBE w n ++ after))
    (T : SymbolTable) :
    readRecordNumber bytes w ⟨before.length, T⟩ = .ok (n, ⟨before.length + w, T⟩) := by
  have hexact := readRecordExact_eq hbytes heq T
  rw [length_toBE] at hexact
  unfold readRecordNumber
  rw [hexact]
  simp only [bind, Except.bind, length_toBE, if_true, ofBE_toBE, Nat.mod_eq_of_lt hn]

theorem readRecordValue_eq {bytes before cells after : Bytes} {v w : Value} {T T' : SymbolTable}
    (hbytes : bytes.length ≤ isizeMax) (heq : bytes = before ++ (cells ++ after))
    (h : wire E .default v.raw = .ok cells) (hi : importValue E .default v.raw T = .ok (w, T')) :
    readRecordValue bytes ⟨before.length, T⟩ = .ok (w, ⟨before.length + cells.length, T'⟩) := by
  have hlen : (cells ++ after).length ≤ isizeMax := by
    rw [heq, length_append] at hbytes
    omega
  have hle : before.length ≤ bytes.length := by
    rw [heq, length_append]
    omega
  have hslice : recordSlice bytes before.length bytes.length = .ok (cells ++ after) := by
    rw [recordSlice, if_pos ⟨hle, le_rfl⟩, take_of_length_le (by rw [length_drop]), heq,
      drop_left]
  unfold readRecordValue
  simp only [hslice, bind, Except.bind, decodeValueWithOptions_wire h hi after hlen]

theorem readRecordValues_eq {bytes : Bytes} (hbytes : bytes.length ≤ isizeMax) (after : Bytes) :
    ∀ {tuple ws : Tuple} {cells : Bytes} (before : Bytes) {T T' : SymbolTable},
      bytes = before ++ (cells ++ after) → wireValues E .default (tuple.map Value.raw) = .ok cells →
        importValues E .default (tuple.map Value.raw) T = .ok (ws, T') →
          readRecordValues bytes tuple.length ⟨before.length, T⟩
            = .ok (ws, ⟨before.length + cells.length, T'⟩)
  | [], _, _, before, _, _, _, h, hi => by
    cases h
    cases hi
    rfl
  | v :: tuple, _, _, before, T, _, heq, h, hi => by
    obtain ⟨a, b, ha, hb, rfl⟩ := cat_eq_ok h
    obtain ⟨⟨w, T₁⟩, hw, hi⟩ := bind_eq_ok hi
    obtain ⟨⟨ws, T₂⟩, hws, hi⟩ := bind_eq_ok hi
    cases hi
    have hread := readRecordValue_eq hbytes (heq.trans (by rw [append_assoc])) ha hw
    have hrest := readRecordValues_eq hbytes after (before ++ a)
      (heq.trans (by simp only [append_assoc])) hb hws
    rw [length_append] at hrest
    simp only [length_cons, readRecordValues, hread, hrest, bind, Except.bind,
      length_append, Nat.add_assoc]

/-- **Decoding a record imports its values.** -/
theorem decodeTuple_eq {tuple ws : Tuple} {r : Bytes} {T T' : SymbolTable}
    (h : encodeTupleRecord E tuple = .ok r)
    (hi : importValues E .default (tuple.map Value.raw) T = .ok (ws, T')) :
    decodeTuple r T = .ok (ws, T') := by
  obtain ⟨hlen, hsize, cells, hcells, rfl⟩ := encodeTuple_eq_ok.mp h
  rw [nil_append] at hsize ⊢
  have hlen' : tuple.length < 256 ^ 4 := lt_of_lt_of_le hlen (by norm_num)
  have hread : readRecordLen _ ⟨0, T⟩ = .ok (tuple.length, ⟨0 + 4, T⟩) :=
    readRecordNumber_eq hsize hlen' [] cells rfl T
  have hvalues := readRecordValues_eq hsize [] _ (by rw [append_nil]) hcells hi
  rw [length_toBE] at hvalues
  unfold decodeTuple
  rw [hread]
  change (readRecordValues _ _ ⟨4, T⟩).bind _ = _
  rw [hvalues]
  exact if_pos (by rw [length_append, length_toBE])

theorem importValues_self : ∀ {tuple : Tuple} {cells : Bytes},
    wireValues E .default (tuple.map Value.raw) = .ok cells →
      importValues E .default (tuple.map Value.raw) E = .ok (tuple, E)
  | [], _, _ => rfl
  | v :: tuple, _, h => by
    obtain ⟨a, b, ha, hb, rfl⟩ := cat_eq_ok h
    simp only [map_cons, importValues, importValue_self ha, importValues_self hb, bind,
      Except.bind]

/-- In the process that wrote it, a record decodes to its tuple. -/
theorem decodeTuple_self {tuple : Tuple} {r : Bytes} (h : encodeTupleRecord E tuple = .ok r) :
    decodeTuple r E = .ok (tuple, E) := by
  obtain ⟨-, -, cells, hcells, -⟩ := encodeTuple_eq_ok.mp h
  exact decodeTuple_eq h (importValues_self hcells)

end ReadSpec

/-! ## Keys -/

section Keys

variable {T : SymbolTable} {relation : RelationId} {tuple : Tuple} {k : Bytes}

/-- A key is its relation and its record. -/
theorem factKey_eq_ok (h : factKey T relation tuple = .ok k) :
    ∃ r, encodeTupleRecord T tuple = .ok r ∧ k = toBE 8 relation.raw.toNat ++ r := by
  obtain ⟨hlen, hsize, cells, hcells, rfl⟩ := encodeTuple_eq_ok.mp h
  refine ⟨toBE 4 tuple.length ++ cells, encodeTuple_eq_ok.mpr ⟨hlen, ?_, cells, hcells, rfl⟩, rfl⟩
  rw [length_append] at hsize
  omega

theorem ofBE_relation (relation : RelationId) :
    identityOfRaw (ofBE (toBE 8 relation.raw.toNat)) = some relation := by
  have hlt : relation.raw.toNat < 256 ^ 8 := by
    have := relation.raw.toNat_lt
    norm_num at this ⊢
    omega
  rw [ofBE_toBE, Nat.mod_eq_of_lt hlt]
  simp only [identityOfRaw, UInt64.ofNat_toNat, dif_pos relation.raw_le]

/-- **One key, one fact.** -/
theorem factKey_injective {relation' : RelationId} {tuple' : Tuple}
    (h : factKey T relation tuple = .ok k) (h' : factKey T relation' tuple' = .ok k) :
    relation = relation' ∧ tuple = tuple' := by
  obtain ⟨r, hr, rfl⟩ := factKey_eq_ok h
  obtain ⟨r', hr', heq⟩ := factKey_eq_ok h'
  obtain ⟨hrelation, rfl⟩ := append_inj heq (by rw [length_toBE, length_toBE])
  constructor
  · have := ofBE_relation relation
    rw [hrelation, ofBE_relation] at this
    exact (Option.some.inj this).symm
  · have := decodeTuple_self hr
    rw [decodeTuple_self hr'] at this
    exact (Prod.mk.inj (Except.ok.inj this)).1.symm

end Keys

end Mica
