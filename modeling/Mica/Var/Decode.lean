import Mica.Var.Codec

/-!
# Var/Decode — `ValueReader`

The reader walks a byte slice by offset.  Every length it meets is checked against the bytes that
are left before anything is read, with checked `usize` arithmetic; each value starts with a word, so
the nesting depth is bounded by the slice and `decodeValueWithOptions` runs with that much fuel.
Names are interned as they are read, so reading also moves the symbol table.  Memory is left out: each
count is checked against the bytes that are left before `Vec::with_capacity` sees it, and the stack
is as deep as the value is nested.
-/

open OrderCode LittleEndian

namespace Mica

/-- How a read can end other than with a value: an error the source returns, a panic of a slice
index or an `unwrap`, or more recursion than the fuel allowed. -/
inductive Fault where
  | error (e : ValueCodecError)
  | panic
  | outOfFuel
  deriving DecidableEq

/-- What reading moves: the offset into the slice, and the process's symbol table. -/
structure ReaderState where
  offset : ℕ
  table : SymbolTable

/-- A step of the reader. -/
abbrev Reader (α : Type) := ReaderState → Except Fault (α × ReaderState)

/-- The kind with the given tag byte. -/
def ValueKind.ofTag : ℕ → Option ValueKind
  | 1 => some .bool
  | 2 => some .int
  | 3 => some .float
  | 4 => some .identity
  | 5 => some .symbol
  | 6 => some .errorCode
  | 7 => some .string
  | 8 => some .bytes
  | 9 => some .list
  | 10 => some .map
  | 11 => some .range
  | 12 => some .error
  | 13 => some .capability
  | 14 => some .frob
  | 15 => some .function
  | 16 => some .relation
  | _ => none

theorem ValueKind.ofTag_tag (k : ValueKind) : ValueKind.ofTag k.tag.toNat = some k := by
  cases k <;> rfl

/-! ## Immediate words -/

/-- `as_int`: the payload sign-extended from 56 bits. -/
def intOfPayload (payload : ℕ) (h : payload < 2 ^ 56) : Integer where
  val := if payload < 2 ^ 55 then payload else payload - 2 ^ 56
  min_le := by unfold intMin; split <;> omega
  le_max := by unfold intMax; split <;> omega

/-- `Value::float_from_bits`: infinities and NaNs are refused, the two zeros are one. -/
def floatFromBits (bits : UInt32) : Option FiniteF32 :=
  if h : f32Exponent bits ≠ 255 then
    if h0 : bits = 0x80000000 then some ⟨0, by decide, by decide⟩ else some ⟨bits, h, h0⟩
  else none

/-- `CapabilityId::new`. -/
def capabilityOfRaw (raw : ℕ) : Option CapabilityId :=
  if h : (UInt64.ofNat raw).toNat ≤ maxPayload ∧ UInt64.ofNat raw ≠ 0 then some ⟨_, h.1, h.2⟩
  else none

/-- `Identity::new`. -/
def identityOfRaw (raw : ℕ) : Option Identity :=
  if h : (UInt64.ofNat raw).toNat ≤ maxPayload then some ⟨_, h⟩ else none

/-- The empty relation of no columns. -/
def emptyRelation : Value :=
  Value.ofRelation ⟨[], [], Nat.zero_le _, RelationValue.heading_sorted_nil, nofun,
    RelationValue.rows_sorted_nil⟩

/-- `decode_inline_word`. -/
def decodeInlineWord (word : ℕ) (options : ValueCodecOptions) : Except ValueCodecError Value :=
  let tag := word / 2 ^ 56 % 256
  let payload := word % 2 ^ 56
  match ValueKind.ofTag tag with
  | some .bool =>
    if payload = 0 then .ok (.bool false)
    else if payload = 1 then .ok (.bool true)
    else .error (.invalidBoolPayload payload)
  | some .int => .ok (.int (intOfPayload payload (Nat.mod_lt _ (by norm_num))))
  | some .float =>
    if payload < 2 ^ 32 then
      match floatFromBits (UInt32.ofNat payload) with
      | some f => .ok (.float f)
      | none => .error (.invalidFloatPayload payload)
    else .error (.invalidFloatPayload payload)
  | some .identity =>
    match identityOfRaw payload with
    | some i => .ok (.identity i)
    | none => .error (.invalidIdentity payload)
  | some .symbol =>
    if options.symbolEncoding ≠ .id then
      .error (.invalidValue "inline symbol id is disabled by codec options")
    else if payload < 2 ^ 32 then .ok (.symbol ⟨UInt32.ofNat payload⟩)
    else .error (.invalidSymbolPayload payload)
  | some .errorCode =>
    if options.symbolEncoding ≠ .id then
      .error (.invalidValue "inline error code id is disabled by codec options")
    else if payload < 2 ^ 32 then .ok (.errorCode ⟨UInt32.ofNat payload⟩)
    else .error (.invalidSymbolPayload payload)
  | some .capability =>
    if options.allowCapabilities then
      match capabilityOfRaw payload with
      | some c => .ok (.capability c)
      | none => .error (.invalidCapabilityPayload payload)
    else .error .capabilityNotDecodable
  | some .function => .error .functionNotDecodable
  | some .string | some .bytes | some .list | some .map | some .range | some .error | some .frob
  | some .relation => .error (.inlineHeapValue tag)
  | none =>
    if tag = 0 then
      if payload = 0 then .ok emptyRelation
      else .error (.invalidValue "empty relation value has non-zero payload")
    else .error (.unknownValueTag tag)

/-! ## Primitive reads -/

/-- Return the source's error. -/
def fail {α : Type} (e : ValueCodecError) : Except Fault α := .error (.error e)

/-- `checked_add` and `checked_mul` on `usize`. -/
def checked (n : ℕ) : Except Fault ℕ :=
  if n < wordLimit then .ok n else fail .offsetOverflow

/-- `&bytes[start..stop]`, which panics out of range. -/
def sliceIndex (bytes : Bytes) (start stop : ℕ) : Except Fault Bytes :=
  if start ≤ stop ∧ stop ≤ bytes.length then .ok ((bytes.drop start).take (stop - start))
  else .error .panic

section Reader

variable (options : ValueCodecOptions) (bytes : Bytes)

/-- `read_exact`. -/
def readExact (len : ℕ) (st : ReaderState) : Except Fault (Bytes × ReaderState) := do
  let stop ← checked (st.offset + len)
  if bytes.length < stop then fail (.unexpectedEnd len st.offset bytes.length)
  else
    let run ← sliceIndex bytes st.offset stop
    .ok (run, { st with offset := stop })

/-- `read_word`; the conversion to eight bytes is an `unwrap`. -/
def readWord (st : ReaderState) : Except Fault (ℕ × ReaderState) := do
  let (run, st) ← readExact bytes 8 st
  if run.length = 8 then .ok (ofLE run, st) else .error .panic

/-- `read_count`: so many values cannot fit in what is left unless each has a word. -/
def readCount (count : ℕ) (st : ReaderState) : Except Fault ℕ := do
  let minimum ← checked (count * 8)
  if bytes.length - st.offset < minimum then
    fail (.unexpectedEnd minimum st.offset bytes.length)
  else .ok count

/-- `String::from_utf8`. -/
def stringOfUtf8 (run : Bytes) : Except Fault String :=
  if h : ByteArray.IsValidUTF8 ⟨run.toArray⟩ then .ok (String.ofByteArray ⟨run.toArray⟩ h)
  else fail .invalidUtf8

/-- `read_string_payload`. -/
def readStringPayload (len : ℕ) (st : ReaderState) : Except Fault (String × ReaderState) := do
  let (run, st) ← readExact bytes len st
  let s ← stringOfUtf8 run
  .ok (s, st)

/-- `read_len_prefixed_string`. -/
def readLenPrefixedString (st : ReaderState) : Except Fault (String × ReaderState) := do
  let (len, st) ← readWord bytes st
  readStringPayload bytes len st

/-- `read_named_symbol`. -/
def readNamedSymbol (kind : ValueKind) (len : ℕ) (make : Symbol → Value) (st : ReaderState) :
    Except Fault (Value × ReaderState) :=
  if options.symbolEncoding ≠ .name then fail (.invalidExtendedAux kind.tag.toNat len)
  else do
    let (name, st) ← readStringPayload bytes len st
    let (symbol, table) := st.table.intern name
    .ok (make symbol, { st with table })

/-- `for _ in 0..n`, collecting what each turn reads. -/
def readMany {α : Type} (read : Reader α) : ℕ → Reader (List α)
  | 0, st => .ok ([], st)
  | n + 1, st => do
    let (a, st) ← read st
    let (as, st) ← readMany read n st
    .ok (a :: as, st)

/-- Read only when the flag is set. -/
def readIf {α : Type} (flag : Bool) (read : Reader α) (st : ReaderState) :
    Except Fault (Option α × ReaderState) :=
  if flag then do
    let (a, st) ← read st
    .ok (some a, st)
  else .ok (none, st)

def Value.asSymbol (v : Value) : Option Symbol :=
  match v.raw with
  | .symbol s => some s
  | _ => none

def Value.asErrorCode (v : Value) : Option Symbol :=
  match v.raw with
  | .errorCode s => some s
  | _ => none

def Value.asIdentity (v : Value) : Option Identity :=
  match v.raw with
  | .identity i => some i
  | _ => none

/-- Read a value and project it, failing with the given message. -/
def readAs {α : Type} (read : Reader Value) (project : Value → Option α)
    (message : String) (st : ReaderState) : Except Fault (α × ReaderState) := do
  let (v, st) ← read st
  match project v with
  | some a => .ok (a, st)
  | none => fail (.invalidValue message)

/-- `Display for RelationValueError`. -/
def RelationValueError.display (T : SymbolTable) : RelationValueError → String
  | headingTooWide columns => s!"relation heading has {columns} columns; maximum is {maxHeading}"
  | duplicateColumn column =>
    match T.name column with
    | some name => s!"duplicate relation column :{name}"
    | none => s!"duplicate relation column :#{column.id}"
  | arityMismatch expected actual =>
    s!"relation row arity mismatch: expected {expected}, got {actual}"

/-- `read_relation`; `read` reads one nested value. -/
def readRelation (read : Reader Value) (aux : ℕ) (st : ReaderState) :
    Except Fault (Value × ReaderState) := do
  let arity ← readCount bytes aux st
  let (heading, st) ←
    readMany (readAs read Value.asSymbol "relation column is not a symbol") arity st
  let (rowCount, st) ← readWord bytes st
  if arity = 0 ∧ 1 < rowCount then
    fail (.invalidValue "zero-arity relation has more than one row")
  else
    let cells ← checked (rowCount * arity)
    let minimum ← checked (cells * 8)
    if bytes.length - st.offset < minimum then
      fail (.unexpectedEnd minimum st.offset bytes.length)
    else
      let (rows, st) ← readMany (readMany read arity) rowCount st
      match Value.relation heading rows with
      | .ok v => .ok (v, st)
      | .error e => fail (.invalidValue (e.display st.table))

/-- Two values in a row: a map entry. -/
def readPair (read : Reader Value) (st : ReaderState) :
    Except Fault ((Value × Value) × ReaderState) := do
  let (k, st) ← read st
  let (v, st) ← read st
  .ok ((k, v), st)

/-- The body of an extended record; `read` reads one nested value. -/
def readExtended (read : Reader Value) (kind aux : ℕ) (st : ReaderState) :
    Except Fault (Value × ReaderState) :=
  match ValueKind.ofTag kind with
  | some .symbol => readNamedSymbol options bytes .symbol aux Value.symbol st
  | some .errorCode => readNamedSymbol options bytes .errorCode aux Value.errorCode st
  | some .string => do
    let (s, st) ← readStringPayload bytes aux st
    .ok (Value.string s, st)
  | some .bytes => do
    let (run, st) ← readExact bytes aux st
    .ok (Value.bytes run, st)
  | some .list => do
    let count ← readCount bytes aux st
    let (values, st) ← readMany read count st
    .ok (Value.list values, st)
  | some .map => do
    let count ← readCount bytes aux st
    let (entries, st) ← readMany (readPair read) count st
    .ok (Value.map entries, st)
  | some .range =>
    if aux / 2 ≠ 0 then fail (.invalidExtendedAux kind aux)
    else do
      let (start, st) ← read st
      let (stop, st) ← readIf (aux % 2 = 1) read st
      .ok (Value.range start stop, st)
  | some .error =>
    if aux / 4 ≠ 0 then fail (.invalidExtendedAux kind aux)
    else do
      let (code, st) ← readAs read Value.asErrorCode "rich error code is not an error code" st
      let (message, st) ← readIf (aux % 2 = 1) (readLenPrefixedString bytes) st
      let (value, st) ← readIf (aux / 2 % 2 = 1) read st
      .ok (Value.error code message value, st)
  | some .frob =>
    if aux ≠ 0 then fail (.invalidExtendedAux kind aux)
    else do
      let (delegate, st) ← readAs read Value.asIdentity "frob delegate is not an identity" st
      let (value, st) ← read st
      .ok (Value.frob delegate value, st)
  | some .relation => readRelation bytes read aux st
  | some .capability => fail .capabilityNotDecodable
  | some .function => fail .functionNotDecodable
  | some .bool | some .int | some .float | some .identity => fail (.invalidExtendedAux kind aux)
  | none =>
    if kind = 0 then fail (.invalidExtendedAux kind aux) else fail (.unknownValueTag kind)

/-- `read_value`. -/
def readValue : ℕ → Reader Value
  | 0, _ => .error .outOfFuel
  | fuel + 1, st => do
    let (word, st) ← readWord bytes st
    if word / 2 ^ 56 % 256 ≠ 0xff then
      match decodeInlineWord word options with
      | .ok v => .ok (v, st)
      | .error e => fail e
    else readExtended options bytes (readValue fuel) (word / 2 ^ 48 % 256) (word % 2 ^ 48) st

end Reader

/-- `decode_value_with_options`: the value, the bytes consumed, and the table afterwards. -/
def decodeValueWithOptions (T : SymbolTable) (options : ValueCodecOptions) (bytes : Bytes) :
    Except Fault (Value × ℕ × SymbolTable) := do
  let (v, st) ← readValue options bytes (bytes.length + 1) ⟨0, T⟩
  .ok (v, st.offset, st.table)

/-- `decode_value_exact_with_options`: trailing bytes are refused; the subtraction is a `usize`
one. -/
def decodeValueExactWithOptions (T : SymbolTable) (options : ValueCodecOptions) (bytes : Bytes) :
    Except Fault (Value × SymbolTable) := do
  let (v, st) ← readValue options bytes (bytes.length + 1) ⟨0, T⟩
  if st.offset = bytes.length then .ok (v, st.table)
  else if st.offset ≤ bytes.length then fail (.trailingBytes (bytes.length - st.offset))
  else .error .panic

end Mica
