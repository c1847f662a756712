import Mica.Lib.LittleEndian
import Mica.Var.Construct
import Mica.Var.SymbolTable

/-!
# Var/Codec — the owned value codec

A value is written as little-endian 64-bit words: an immediate value is its own tagged word, anything
else starts with an extended header word (`0xff`, a kind byte, 48 bits of length or flags) followed by
its parts.  There are two encoders — one streams to a sink, one collects segments that borrow string
and byte payloads — and one decoder, `ValueReader`.

The decoder's faults are of two kinds: the errors the source returns (`ValueCodecError`), and the ones
that would be a crash (`panic`) or a loop (`outOfFuel`), kept apart so that they can be excluded.
-/

open OrderCode LittleEndian

namespace Mica

/-! ## Options and errors -/

inductive SymbolEncoding where
  | name
  | id
  deriving DecidableEq

structure ValueCodecOptions where
  symbolEncoding : SymbolEncoding
  allowCapabilities : Bool

/-- `ValueCodecOptions::default`: what is safe to persist. -/
def ValueCodecOptions.default : ValueCodecOptions where
  symbolEncoding := .name
  allowCapabilities := false

inductive ValueCodecError where
  | lengthTooLarge (len : ℕ)
  | inlineHeapValue (tag : ℕ)
  | unnamedSymbol (id : ℕ)
  | capabilityNotEncodable
  | capabilityNotDecodable
  | functionNotEncodable
  | functionNotDecodable
  | unexpectedEnd (needed offset len : ℕ)
  | trailingBytes (count : ℕ)
  | invalidBoolPayload (payload : ℕ)
  | invalidFloatPayload (payload : ℕ)
  | invalidCapabilityPayload (payload : ℕ)
  | invalidSymbolPayload (payload : ℕ)
  | invalidUtf8
  | invalidIdentity (raw : ℕ)
  | invalidValue (message : String)
  | invalidExtendedAux (kind aux : ℕ)
  | unknownValueTag (tag : ℕ)
  | offsetOverflow
  deriving DecidableEq

/-! ## Words -/

/-- `usize::MAX` and `u64::MAX`, plus one. -/
def wordLimit : ℕ := 2 ^ 64

/-- `EXT_AUX_MASK`. -/
def extAuxMask : ℕ := 2 ^ 48 - 1

/-- `Value::pack`: the tag in the top byte, 56 bits of payload below. -/
def pack (tag : UInt8) (payload : ℕ) : ℕ := tag.toNat * 2 ^ 56 + payload % 2 ^ 56

/-- `extended_header_word`. -/
def extendedHeaderWord (kind : ValueKind) (aux : ℕ) : ℕ :=
  0xff * 2 ^ 56 + kind.tag.toNat * 2 ^ 48 + aux

/-- `len_aux`. -/
def lenAux (len : ℕ) : Except ValueCodecError ℕ :=
  if len ≤ extAuxMask then .ok len else .error (.lengthTooLarge (wordLimit - 1))

/-- `u64::try_from(len)`. -/
def lenWord (len : ℕ) : Except ValueCodecError ℕ :=
  if len < wordLimit then .ok len else .error (.lengthTooLarge len)

/-- `value as u64 & PAYLOAD_MASK`. -/
def Integer.payload (i : Integer) : ℕ := (i.val % 2 ^ 56).toNat

def rangeFlags (stop : Option RawValue) : ℕ := if stop.isSome then 1 else 0

def errorFlags (message : Option String) (value : Option RawValue) : ℕ :=
  (if message.isSome then 1 else 0) + if value.isSome then 2 else 0

/-! ## The streaming encoder -/

/-- `ValueSink`: an output target that may refuse bytes. -/
structure ValueSink (σ : Type) where
  writeBytes : σ → Bytes → Except ValueCodecError σ

/-- `ValueSink for Vec<u8>`. -/
def ValueSink.vec : ValueSink Bytes where
  writeBytes out bytes := .ok (out ++ bytes)

section Sink

variable {σ : Type} (S : ValueSink σ) (T : SymbolTable) (options : ValueCodecOptions)

/-- `write_word`. -/
def writeWord (word : ℕ) (s : σ) : Except ValueCodecError σ := S.writeBytes s (toLE 8 word)

/-- `write_extended_header`. -/
def writeExtendedHeader (kind : ValueKind) (aux : ℕ) (s : σ) : Except ValueCodecError σ :=
  writeWord S (extendedHeaderWord kind aux) s

/-- `write_blob`. -/
def writeBlob (bytes : Bytes) (s : σ) : Except ValueCodecError σ := do
  let len ← lenWord bytes.length
  let s ← S.writeBytes s (toLE 8 len)
  S.writeBytes s bytes

/-- `encode_symbol_value`. -/
def encodeSymbolValue (kind : ValueKind) (symbol : Symbol) (s : σ) : Except ValueCodecError σ :=
  match options.symbolEncoding with
  | .id => writeWord S (pack kind.tag symbol.id.toNat) s
  | .name =>
    match T.name symbol with
    | none => .error (.unnamedSymbol symbol.id.toNat)
    | some name => do
      let aux ← lenAux (utf8 name).length
      let s ← writeExtendedHeader S kind aux s
      S.writeBytes s (utf8 name)

/-- The heading's columns, one symbol after the other. -/
def encodeColumns : List Symbol → σ → Except ValueCodecError σ
  | [], s => .ok s
  | column :: heading, s => do
    let s ← encodeSymbolValue S T options .symbol column s
    encodeColumns heading s

def encodeMessage (message : Option String) (s : σ) : Except ValueCodecError σ :=
  match message with
  | some message => writeBlob S (utf8 message) s
  | none => .ok s

mutual

/-- `encode_value_to_sink`. -/
def encodeValueToSink : RawValue → σ → Except ValueCodecError σ
  | .relation [] [], s => writeWord S 0 s
  | .bool b, s => writeWord S (pack ValueKind.bool.tag b.toNat) s
  | .int i, s => writeWord S (pack ValueKind.int.tag i.payload) s
  | .float f, s => writeWord S (pack ValueKind.float.tag f.bits.toNat) s
  | .identity i, s => writeWord S (pack ValueKind.identity.tag i.raw.toNat) s
  | .symbol symbol, s => encodeSymbolValue S T options .symbol symbol s
  | .errorCode symbol, s => encodeSymbolValue S T options .errorCode symbol s
  | .string value, s => do
    let aux ← lenAux (utf8 value).length
    let s ← writeExtendedHeader S .string aux s
    S.writeBytes s (utf8 value)
  | .bytes value, s => do
    let aux ← lenAux value.length
    let s ← writeExtendedHeader S .bytes aux s
    S.writeBytes s value
  | .list values, s => do
    let aux ← lenAux values.length
    let s ← writeExtendedHeader S .list aux s
    encodeValuesToSink values s
  | .map entries, s => do
    let aux ← lenAux entries.length
    let s ← writeExtendedHeader S .map aux s
    encodeEntriesToSink entries s
  | .relation heading rows, s => do
    let aux ← lenAux heading.length
    let s ← writeExtendedHeader S .relation aux s
    let s ← encodeColumns S T options heading s
    let len ← lenWord rows.length
    let s ← writeWord S len s
    encodeRowsToSink rows s
  | .range start stop, s => do
    let s ← writeExtendedHeader S .range (rangeFlags stop) s
    let s ← encodeValueToSink start s
    encodeOptionToSink stop s
  | .error code message value, s => do
    let s ← writeExtendedHeader S .error (errorFlags message value) s
    let s ← encodeSymbolValue S T options .errorCode code s
    let s ← encodeMessage S message s
    encodeOptionToSink value s
  | .frob delegate value, s => do
    let s ← writeExtendedHeader S .frob 0 s
    let s ← writeWord S (pack ValueKind.identity.tag delegate.raw.toNat) s
    encodeValueToSink value s
  | .capability c, s =>
    if options.allowCapabilities then writeWord S (pack ValueKind.capability.tag c.raw.toNat) s
    else .error .capabilityNotEncodable
  | .function _, _ => .error .functionNotEncodable
termination_by structural v => v

def encodeValuesToSink : List RawValue → σ → Except ValueCodecError σ
  | [], s => .ok s
  | v :: vs, s => do
    let s ← encodeValueToSink v s
    encodeValuesToSink vs s
termination_by structural vs => vs

def encodeEntriesToSink : List (RawValue × RawValue) → σ → Except ValueCodecError σ
  | [], s => .ok s
  | (k, v) :: es, s => do
    let s ← encodeValueToSink k s
    let s ← encodeValueToSink v s
    encodeEntriesToSink es s
termination_by structural es => es

def encodeRowsToSink : List (List RawValue) → σ → Except ValueCodecError σ
  | [], s => .ok s
  | row :: rows, s => do
    let s ← encodeValuesToSink row s
    encodeRowsToSink rows s
termination_by structural rows => rows

def encodeOptionToSink : Option RawValue → σ → Except ValueCodecError σ
  | none, s => .ok s
  | some v, s => encodeValueToSink v s
termination_by structural x => x

end

end Sink

/-- `encode_value_with_options`: append to a byte vector. -/
def encodeValueWithOptions (T : SymbolTable) (options : ValueCodecOptions) (v : Value)
    (out : Bytes) : Except ValueCodecError Bytes :=
  encodeValueToSink ValueSink.vec T options v.raw out

/-! ## The segmented encoder -/

/-- `ValueSegment`: a borrowed run of bytes, or the index of a scratch word. -/
inductive ValueSegment where
  | borrowed (bytes : Bytes)
  | scratch (index : ℕ)

/-- `ValueSegments`: every scratch segment names a word that is there. -/
structure ValueSegments where
  scratch : List Bytes
  segments : List ValueSegment
  valid : ∀ index, ValueSegment.scratch index ∈ segments → index < scratch.length

namespace ValueSegments

def empty : ValueSegments := ⟨[], [], nofun⟩

/-- The bytes of one segment; `valid` keeps the index in range. -/
def segmentBytes (scratch : List Bytes) : ValueSegment → Bytes
  | .borrowed bytes => bytes
  | .scratch index => scratch.getD index []

/-- `ValueSegments::to_vec`. -/
def toVec (segs : ValueSegments) : Bytes := segs.segments.flatMap (segmentBytes segs.scratch)

/-- `push_scratch_word`. -/
def pushScratchWord (word : ℕ) (segs : ValueSegments) : ValueSegments where
  scratch := segs.scratch ++ [toLE 8 word]
  segments := segs.segments ++ [.scratch segs.scratch.length]
  valid := by
    intro index h
    rw [List.length_append]
    rcases List.mem_append.mp h with h | h
    · have := segs.valid index h
      omega
    · obtain rfl : index = segs.scratch.length := by simpa using h
      simp

/-- `push_borrowed`: an empty run is not recorded. -/
def pushBorrowed (bytes : Bytes) (segs : ValueSegments) : ValueSegments :=
  if bytes = [] then segs
  else {
    scratch := segs.scratch
    segments := segs.segments ++ [.borrowed bytes]
    valid := by
      intro index h
      rcases List.mem_append.mp h with h | h
      · exact segs.valid index h
      · simp at h }

end ValueSegments

section Segments

variable (T : SymbolTable) (options : ValueCodecOptions)

/-- `encode_symbol_to_segments`. -/
def encodeSymbolToSegments (kind : ValueKind) (symbol : Symbol) (segs : ValueSegments) :
    Except ValueCodecError ValueSegments :=
  match options.symbolEncoding with
  | .id => .ok (segs.pushScratchWord (pack kind.tag symbol.id.toNat))
  | .name =>
    match T.name symbol with
    | none => .error (.unnamedSymbol symbol.id.toNat)
    | some name => do
      let aux ← lenAux (utf8 name).length
      .ok ((segs.pushScratchWord (extendedHeaderWord kind aux)).pushBorrowed (utf8 name))

def encodeColumnsToSegments : List Symbol → ValueSegments → Except ValueCodecError ValueSegments
  | [], segs => .ok segs
  | column :: heading, segs => do
    let segs ← encodeSymbolToSegments T options .symbol column segs
    encodeColumnsToSegments heading segs

def encodeMessageToSegments (message : Option String) (segs : ValueSegments) :
    Except ValueCodecError ValueSegments :=
  match message with
  | some message => do
    let len ← lenWord (utf8 message).length
    .ok ((segs.pushScratchWord len).pushBorrowed (utf8 message))
  | none => .ok segs

mutual

/-- `encode_value_to_segments`. -/
def encodeValueToSegments : RawValue → ValueSegments → Except ValueCodecError ValueSegments
  | .relation [] [], segs => .ok (segs.pushScratchWord 0)
  | .bool b, segs => .ok (segs.pushScratchWord (pack ValueKind.bool.tag b.toNat))
  | .int i, segs => .ok (segs.pushScratchWord (pack ValueKind.int.tag i.payload))
  | .float f, segs => .ok (segs.pushScratchWord (pack ValueKind.float.tag f.bits.toNat))
  | .identity i, segs => .ok (segs.pushScratchWord (pack ValueKind.identity.tag i.raw.toNat))
  | .symbol symbol, segs => encodeSymbolToSegments T options .symbol symbol segs
  | .errorCode symbol, segs => encodeSymbolToSegments T options .errorCode symbol segs
  | .string value, segs => do
    let aux ← lenAux (utf8 value).length
    .ok ((segs.pushScratchWord (extendedHeaderWord .string aux)).pushBorrowed (utf8 value))
  | .bytes value, segs => do
    let aux ← lenAux value.length
    .ok ((segs.pushScratchWord (extendedHeaderWord .bytes aux)).pushBorrowed value)
  | .list values, segs => do
    let aux ← lenAux values.length
    encodeValuesToSegments values (segs.pushScratchWord (extendedHeaderWord .list aux))
  | .map entries, segs => do
    let aux ← lenAux entries.length
    encodeEntriesToSegments entries (segs.pushScratchWord (extendedHeaderWord .map aux))
  | .relation heading rows, segs => do
    let aux ← lenAux heading.length
    let segs ← encodeColumnsToSegments T options heading
      (segs.pushScratchWord (extendedHeaderWord .relation aux))
    let len ← lenWord rows.length
    encodeRowsToSegments rows (segs.pushScratchWord len)
  | .range start stop, segs => do
    let segs ← encodeValueToSegments start
      (segs.pushScratchWord (extendedHeaderWord .range (rangeFlags stop)))
    encodeOptionToSegments stop segs
  | .error code message value, segs => do
    let segs ← encodeSymbolToSegments T options .errorCode code
      (segs.pushScratchWord (extendedHeaderWord .error (errorFlags message value)))
    let segs ← encodeMessageToSegments message segs
    encodeOptionToSegments value segs
  | .frob delegate value, segs =>
    encodeValueToSegments value
      ((segs.pushScratchWord (extendedHeaderWord .frob 0)).pushScratchWord
        (pack ValueKind.identity.tag delegate.raw.toNat))
  | .capability c, segs =>
    if options.allowCapabilities then
      .ok (segs.pushScratchWord (pack ValueKind.capability.tag c.raw.toNat))
    else .error .capabilityNotEncodable
  | .function _, _ => .error .functionNotEncodable
termination_by structural v => v

def encodeValuesToSegments : List RawValue → ValueSegments → Except ValueCodecError ValueSegments
  | [], segs => .ok segs
  | v :: vs, segs => do
    let segs ← encodeValueToSegments v segs
    encodeValuesToSegments vs segs
termination_by structural vs => vs

def encodeEntriesToSegments :
    List (RawValue × RawValue) → ValueSegments → Except ValueCodecError ValueSegments
  | [], segs => .ok segs
  | (k, v) :: es, segs => do
    let segs ← encodeValueToSegments k segs
    let segs ← encodeValueToSegments v segs
    encodeEntriesToSegments es segs
termination_by structural es => es

def encodeRowsToSegments :
    List (List RawValue) → ValueSegments → Except ValueCodecError ValueSegments
  | [], segs => .ok segs
  | row :: rows, segs => do
    let segs ← encodeValuesToSegments row segs
    encodeRowsToSegments rows segs
termination_by structural rows => rows

def encodeOptionToSegments :
    Option RawValue → ValueSegments → Except ValueCodecError ValueSegments
  | none, segs => .ok segs
  | some v, segs => encodeValueToSegments v segs
termination_by structural x => x

end

/-- `encode_value_segments_with_options`. -/
def encodeValueSegmentsWithOptions (v : Value) : Except ValueCodecError ValueSegments :=
  encodeValueToSegments T options v.raw ValueSegments.empty

end Segments

end Mica
