import Mica.Lib.ByteCodec
import Mica.Var.Decode

/-!
# Host/Message — host messages, their payloads and their reader

A payload is the message's fields one after the other: numbers in little-endian order, strings and
symbol names behind a 32-bit length, options behind a tag byte, values in their own self-delimiting
codec.  It is written twice in the source — to a byte vector, and to a list of segments that borrow
the strings and the values' own segments — and read once.
-/

open OrderCode LittleEndian ByteCodec List

namespace Mica

/-- The kinds of messages. -/
inductive MessageType where
  | hello
  | helloAck
  | requestAccepted
  | requestRejected
  | openEndpoint
  | closeEndpoint
  | resolveIdentity
  | identityResolved
  | submitSource
  | submitInput
  | outputReady
  | drainOutput
  | outputBatch
  | endpointClosed
  | taskCompleted
  | taskFailed
  deriving DecidableEq

namespace MessageType

/-- The number of a type on the wire. -/
def raw : MessageType → UInt16
  | hello => 0x0001
  | helloAck => 0x0002
  | requestAccepted => 0x0003
  | requestRejected => 0x0004
  | openEndpoint => 0x0100
  | closeEndpoint => 0x0101
  | resolveIdentity => 0x0102
  | identityResolved => 0x0103
  | submitSource => 0x0200
  | submitInput => 0x0201
  | outputReady => 0x0300
  | drainOutput => 0x0301
  | outputBatch => 0x0302
  | endpointClosed => 0x0303
  | taskCompleted => 0x0400
  | taskFailed => 0x0401

/-- The type of a number, if it has one. -/
def fromRaw (raw : UInt16) : Option MessageType :=
  if raw = 0x0001 then some hello
  else if raw = 0x0002 then some helloAck
  else if raw = 0x0003 then some requestAccepted
  else if raw = 0x0004 then some requestRejected
  else if raw = 0x0100 then some openEndpoint
  else if raw = 0x0101 then some closeEndpoint
  else if raw = 0x0102 then some resolveIdentity
  else if raw = 0x0103 then some identityResolved
  else if raw = 0x0200 then some submitSource
  else if raw = 0x0201 then some submitInput
  else if raw = 0x0300 then some outputReady
  else if raw = 0x0301 then some drainOutput
  else if raw = 0x0302 then some outputBatch
  else if raw = 0x0303 then some endpointClosed
  else if raw = 0x0400 then some taskCompleted
  else if raw = 0x0401 then some taskFailed
  else none

/-- A type is found by its number. -/
theorem fromRaw_raw (t : MessageType) : fromRaw t.raw = some t := by
  cases t <;> decide

end MessageType

/-- The messages between a host and the runtime. -/
inductive HostMessage where
  | hello (protocolVersion minProtocolVersion : UInt16) (featureBits : UInt64) (hostName : String)
  | helloAck (protocolVersion : UInt16) (featureBits : UInt64)
  | requestAccepted (requestId : UInt64) (taskId : Option UInt64)
  | requestRejected (requestId : UInt64) (code : Symbol) (message : String)
  | openEndpoint (requestId : UInt64) (endpoint : Identity) (actor : Option Identity)
      (protocol : String) (grantToken : Option String)
  | closeEndpoint (requestId : UInt64) (endpoint : Identity)
  | resolveIdentity (requestId : UInt64) (name : Symbol)
  | identityResolved (requestId : UInt64) (name : Symbol) (identity : Identity)
  | submitSource (requestId : UInt64) (endpoint actor : Identity) (source : String)
  | submitInput (requestId : UInt64) (endpoint : Identity) (value : Value)
  | outputReady (endpoint : Identity) (buffered : UInt32)
  | drainOutput (requestId : UInt64) (endpoint : Identity) (limit : UInt32)
  | outputBatch (endpoint : Identity) (values : List Value)
  | endpointClosed (endpoint : Identity) (reason : String)
  | taskCompleted (taskId : UInt64) (value : Value)
  | taskFailed (taskId : UInt64) (error : Value)

/-- The type of a message. -/
def HostMessage.messageType : HostMessage → MessageType
  | hello _ _ _ _ => .hello
  | helloAck _ _ => .helloAck
  | requestAccepted _ _ => .requestAccepted
  | requestRejected _ _ _ => .requestRejected
  | openEndpoint _ _ _ _ _ => .openEndpoint
  | closeEndpoint _ _ => .closeEndpoint
  | resolveIdentity _ _ => .resolveIdentity
  | identityResolved _ _ _ => .identityResolved
  | submitSource _ _ _ _ => .submitSource
  | submitInput _ _ _ => .submitInput
  | outputReady _ _ => .outputReady
  | drainOutput _ _ _ => .drainOutput
  | outputBatch _ _ => .outputBatch
  | endpointClosed _ _ => .endpointClosed
  | taskCompleted _ _ => .taskCompleted
  | taskFailed _ _ => .taskFailed

/-- The errors a frame can meet.  `value` carries the value codec's own ending, so that a crash of
its reader would show. -/
inductive HostProtocolError where
  | frameTooLarge (len : ℕ)
  | invalidMagic (magic : Bytes)
  | invalidFrameLength (declared actual : ℕ)
  | unexpectedEnd (needed offset len : ℕ)
  | trailingFrameBytes (count : ℕ)
  | trailingPayload (count : ℕ)
  | unsupportedFlags (flags : ℕ)
  | invalidUtf8
  | invalidIdentity (raw : ℕ)
  | invalidOptionTag (tag : ℕ)
  | symbolNameUnavailable (id : ℕ)
  | unknownMessageType (raw : ℕ)
  | value (fault : Fault)
  deriving DecidableEq

/-- The result of the value codec as a result of this one. -/
def ofValueCodec {α : Type} : Except ValueCodecError α → Except HostProtocolError α
  | .ok a => .ok a
  | .error e => .error (.value (.error e))

/-- `u32::try_from(len)`. -/
def u32Len (len : ℕ) : Except HostProtocolError ℕ :=
  if len < 2 ^ 32 then .ok len else .error (.frameTooLarge len)

/-! ## To a byte vector -/

namespace FrameWriter

section Write

variable (T : SymbolTable)

/-- A number, low byte first. -/
def writeLE (w n : ℕ) (out : Bytes) : Except HostProtocolError Bytes := .ok (out ++ toLE w n)

def writeU8 (value : ℕ) : Bytes → Except HostProtocolError Bytes := writeLE 1 value

def writeU16 (value : UInt16) : Bytes → Except HostProtocolError Bytes := writeLE 2 value.toNat

def writeU32 (value : UInt32) : Bytes → Except HostProtocolError Bytes := writeLE 4 value.toNat

def writeU64 (value : UInt64) : Bytes → Except HostProtocolError Bytes := writeLE 8 value.toNat

/-- A length that fits 32 bits. -/
def writeLen (len : ℕ) (out : Bytes) : Except HostProtocolError Bytes :=
  u32Len len >>= fun len => writeLE 4 len out

def writeIdentity (identity : Identity) : Bytes → Except HostProtocolError Bytes :=
  writeU64 identity.raw

/-- A string behind its length. -/
def writeString (value : String) (out : Bytes) : Except HostProtocolError Bytes :=
  writeLen (utf8 value).length out >>= fun out => .ok (out ++ utf8 value)

/-- A symbol, by its name. -/
def writeSymbolName (symbol : Symbol) (out : Bytes) : Except HostProtocolError Bytes :=
  match T.name symbol with
  | none => .error (.symbolNameUnavailable symbol.id.toNat)
  | some name => writeString name out

def writeOptionalString : Option String → Bytes → Except HostProtocolError Bytes
  | some value, out => writeU8 1 out >>= writeString value
  | none, out => writeU8 0 out

def writeOptionalIdentity : Option Identity → Bytes → Except HostProtocolError Bytes
  | some value, out => writeU8 1 out >>= writeIdentity value
  | none, out => writeU8 0 out

def writeOptionalU64 : Option UInt64 → Bytes → Except HostProtocolError Bytes
  | some value, out => writeU8 1 out >>= writeU64 value
  | none, out => writeU8 0 out

/-- A value, in the default encoding. -/
def encodeValue (value : Value) (out : Bytes) : Except HostProtocolError Bytes :=
  ofValueCodec (encodeValueWithOptions T .default value out)

def encodeValues : List Value → Bytes → Except HostProtocolError Bytes
  | [], out => .ok out
  | value :: values, out => encodeValue T value out >>= encodeValues values

/-- `encode_payload`: the fields of a message, in order. -/
def encodePayload (message : HostMessage) (out : Bytes) : Except HostProtocolError Bytes :=
  match message with
  | .hello protocolVersion minProtocolVersion featureBits hostName =>
    writeU16 protocolVersion out >>= writeU16 minProtocolVersion >>= writeU64 featureBits
      >>= writeString hostName
  | .helloAck protocolVersion featureBits => writeU16 protocolVersion out >>= writeU64 featureBits
  | .requestAccepted requestId taskId => writeU64 requestId out >>= writeOptionalU64 taskId
  | .requestRejected requestId code message =>
    writeU64 requestId out >>= writeSymbolName T code >>= writeString message
  | .openEndpoint requestId endpoint actor protocol grantToken =>
    writeU64 requestId out >>= writeIdentity endpoint >>= writeOptionalIdentity actor
      >>= writeString protocol >>= writeOptionalString grantToken
  | .closeEndpoint requestId endpoint => writeU64 requestId out >>= writeIdentity endpoint
  | .resolveIdentity requestId name => writeU64 requestId out >>= writeSymbolName T name
  | .identityResolved requestId name identity =>
    writeU64 requestId out >>= writeSymbolName T name >>= writeIdentity identity
  | .submitSource requestId endpoint actor source =>
    writeU64 requestId out >>= writeIdentity endpoint >>= writeIdentity actor
      >>= writeString source
  | .submitInput requestId endpoint value =>
    writeU64 requestId out >>= writeIdentity endpoint >>= encodeValue T value
  | .outputReady endpoint buffered => writeIdentity endpoint out >>= writeU32 buffered
  | .drainOutput requestId endpoint limit =>
    writeU64 requestId out >>= writeIdentity endpoint >>= writeU32 limit
  | .outputBatch endpoint values =>
    writeIdentity endpoint out >>= writeLen values.length >>= encodeValues T values
  | .endpointClosed endpoint reason => writeIdentity endpoint out >>= writeString reason
  | .taskCompleted taskId value => writeU64 taskId out >>= encodeValue T value
  | .taskFailed taskId error => writeU64 taskId out >>= encodeValue T error

end Write

end FrameWriter

open FrameWriter

/-! ## To segments -/

/-- A run of bytes of a frame: borrowed, or one of the scratch words, or a segment of a value. -/
inductive FrameSegment where
  | borrowed (bytes : Bytes)
  | scratch (index : ℕ)
  | valueScratch (valueIndex scratchIndex : ℕ)
  | valueBorrowed (valueIndex segmentIndex : ℕ)

/-- The segment names something that is there. -/
def FrameSegment.Valid (scratch : List Bytes) (values : List ValueSegments) : FrameSegment → Prop
  | .borrowed _ => True
  | .scratch index => index < scratch.length
  | .valueScratch valueIndex _ => valueIndex < values.length
  | .valueBorrowed valueIndex _ => valueIndex < values.length

variable {scratch : List Bytes} {values : List ValueSegments} {segment : FrameSegment}

/-- A segment stays valid as scratch words are added. -/
theorem FrameSegment.Valid.append_scratch (h : segment.Valid scratch values) (more : List Bytes) :
    segment.Valid (scratch ++ more) values := by
  cases segment with
  | scratch => exact lt_of_lt_of_le h (by simp)
  | borrowed => trivial
  | valueScratch => exact h
  | valueBorrowed => exact h

/-- It stays valid as values are added. -/
theorem FrameSegment.Valid.append_value
     (h : segment.Valid scratch values) (more : List ValueSegments) :
    segment.Valid scratch (values ++ more) := by
  cases segment with
  | borrowed => trivial
  | scratch => exact h
  | valueScratch => exact lt_of_lt_of_le h (by simp)
  | valueBorrowed => exact lt_of_lt_of_le h (by simp)

/-- The bytes of a segment. -/
def FrameSegment.bytes (scratch : List Bytes) (values : List ValueSegments) : FrameSegment → Bytes
  | .borrowed bytes => bytes
  | .scratch index => scratch.getD index []
  | .valueScratch valueIndex scratchIndex =>
    (values.getD valueIndex .empty).scratch.getD scratchIndex []
  | .valueBorrowed valueIndex segmentIndex =>
    match (values.getD valueIndex .empty).segments[segmentIndex]? with
    | some (.borrowed bytes) => bytes
    | _ => []

/-- Its bytes stay the same as scratch words are added. -/
theorem FrameSegment.bytes_append_scratch (h : segment.Valid scratch values) (more : List Bytes) :
    segment.bytes (scratch ++ more) values = segment.bytes scratch values := by
  cases segment with
  | scratch index => exact getD_append _ _ _ _ h
  | borrowed => rfl
  | valueScratch => rfl
  | valueBorrowed => rfl

/-- They stay the same as values are added. -/
theorem FrameSegment.bytes_append_value
     (h : segment.Valid scratch values) (more : List ValueSegments) :
    segment.bytes scratch (values ++ more) = segment.bytes scratch values := by
  cases segment with
  | scratch index => rfl
  | borrowed => rfl
  | valueScratch => simp only [FrameSegment.bytes, getD_append _ _ _ _ h]
  | valueBorrowed => simp only [FrameSegment.bytes, getD_append _ _ _ _ h]

/-- The bytes of some segments, one after the other. -/
def segmentsBytes (scratch : List Bytes) (values : List ValueSegments)
    (segments : List FrameSegment) : Bytes := segments.flatMap (·.bytes scratch values)

/-- Every segment names something that is there, and `len` counts their bytes. -/
structure EncodedFrameSegments where
  scratch : List Bytes
  values : List ValueSegments
  segments : List FrameSegment
  len : ℕ
  valid : ∀ segment ∈ segments, segment.Valid scratch values
  len_eq : len = (segmentsBytes scratch values segments).length

namespace EncodedFrameSegments

def empty : EncodedFrameSegments := ⟨[], [], [], 0, nofun, rfl⟩

/-- The bytes that the segments spell. -/
def toVec (segs : EncodedFrameSegments) : Bytes :=
  segmentsBytes segs.scratch segs.values segs.segments

/-- More scratch words leave the bytes of the segments. -/
theorem segmentsBytes_append_scratch (segs : EncodedFrameSegments) (more : List Bytes) :
    segmentsBytes (segs.scratch ++ more) segs.values segs.segments = segs.toVec :=
  flatMap_congr fun segment h =>
    FrameSegment.bytes_append_scratch (segs.valid segment h) more

/-- So do more values. -/
theorem segmentsBytes_append_value (segs : EncodedFrameSegments) (more : List ValueSegments) :
    segmentsBytes segs.scratch (segs.values ++ more) segs.segments = segs.toVec :=
  flatMap_congr fun segment h => FrameSegment.bytes_append_value (segs.valid segment h) more

/-- A scratch word and its segment add its bytes. -/
theorem segmentsBytes_pushScratch (segs : EncodedFrameSegments) (bytes : Bytes) :
    segmentsBytes (segs.scratch ++ [bytes]) segs.values
      (segs.segments ++ [.scratch segs.scratch.length]) = segs.toVec ++ bytes := by
  rw [segmentsBytes, flatMap_append, ← segmentsBytes, segmentsBytes_append_scratch]
  simp [FrameSegment.bytes]

/-- A scratch word, with its segment. -/
def pushScratch (bytes : Bytes) (segs : EncodedFrameSegments) : EncodedFrameSegments where
  scratch := segs.scratch ++ [bytes]
  values := segs.values
  segments := segs.segments ++ [.scratch segs.scratch.length]
  len := segs.len + bytes.length
  valid := by
    intro segment hmem
    rcases mem_append.mp hmem with h | h
    · exact FrameSegment.Valid.append_scratch (segs.valid segment h) [bytes]
    · rw [mem_singleton.mp h]
      change segs.scratch.length < (segs.scratch ++ [bytes]).length
      simp
  len_eq := by rw [segmentsBytes_pushScratch, length_append, segs.len_eq]; rfl

/-- A borrowed run adds its bytes. -/
theorem segmentsBytes_pushBorrowed (segs : EncodedFrameSegments) (bytes : Bytes) :
    segmentsBytes segs.scratch segs.values (segs.segments ++ [.borrowed bytes]) =
      segs.toVec ++ bytes := by
  rw [segmentsBytes, flatMap_append]
  simp [FrameSegment.bytes, toVec, segmentsBytes]

/-- An empty run is not recorded. -/
def pushBorrowed (bytes : Bytes) (segs : EncodedFrameSegments) : EncodedFrameSegments :=
  if bytes = [] then segs
  else
    { segs with
      segments := segs.segments ++ [.borrowed bytes]
      len := segs.len + bytes.length
      valid := by
        intro segment hmem
        rcases mem_append.mp hmem with h | h
        · exact segs.valid segment h
        · rw [mem_singleton.mp h]
          trivial
      len_eq := by rw [segmentsBytes_pushBorrowed, length_append, segs.len_eq]; rfl }

/-- The frame's name for a value's segment. -/
def ofValueSegment (valueIndex segmentIndex : ℕ) : ValueSegment → FrameSegment
  | .scratch scratchIndex => .valueScratch valueIndex scratchIndex
  | .borrowed _ => .valueBorrowed valueIndex segmentIndex

/-- The segments of a value are there once the value is. -/
theorem ofValueSegment_valid {scratch : List Bytes} {values : List ValueSegments} {v i : ℕ}
    (h : v < values.length) (segment : ValueSegment) :
    (ofValueSegment v i segment).Valid scratch values := by
  cases segment <;> exact h

/-- They have the bytes that they have in the value. -/
theorem bytes_ofValueSegment (scratch : List Bytes) (values : List ValueSegments)
    (value : ValueSegments) {i : ℕ} {segment : ValueSegment} (h : value.segments[i]? = some segment) :
    (ofValueSegment values.length i segment).bytes scratch (values ++ [value]) =
      ValueSegments.segmentBytes value.scratch segment := by
  have hvalue : (values ++ [value]).getD values.length .empty = value := by simp
  cases segment with
  | scratch index => simp only [ofValueSegment, FrameSegment.bytes, hvalue, ValueSegments.segmentBytes]
  | borrowed bytes =>
    simp only [ofValueSegment, FrameSegment.bytes, hvalue, h, ValueSegments.segmentBytes]

/-- A value and its segments add its bytes. -/
theorem segmentsBytes_appendValue (segs : EncodedFrameSegments) (value : ValueSegments) :
    segmentsBytes segs.scratch (segs.values ++ [value])
      (segs.segments ++ value.segments.mapIdx (ofValueSegment segs.values.length)) =
      segs.toVec ++ value.toVec := by
  have hvalue : (value.segments.mapIdx (ofValueSegment segs.values.length)).map
      (FrameSegment.bytes segs.scratch (segs.values ++ [value])) =
      value.segments.map (ValueSegments.segmentBytes value.scratch) := by
    refine ext_getElem (by simp) fun i hi hi' => ?_
    have hlt : i < value.segments.length := by simpa using hi'
    rw [getElem_map, getElem_mapIdx, getElem_map]
    exact bytes_ofValueSegment _ _ _ (getElem?_eq_getElem hlt)
  rw [segmentsBytes, flatMap_append, ← segmentsBytes, segmentsBytes_append_value,
    flatMap_def (l := List.mapIdx _ _), hvalue, ← flatMap_def]
  rfl

/-- The segments of an encoded value, after those already there. -/
def appendValue (value : ValueSegments) (segs : EncodedFrameSegments) : EncodedFrameSegments where
  scratch := segs.scratch
  values := segs.values ++ [value]
  segments := segs.segments ++ value.segments.mapIdx (ofValueSegment segs.values.length)
  len := segs.len + value.toVec.length
  valid := by
    intro segment hmem
    rcases mem_append.mp hmem with h | h
    · exact FrameSegment.Valid.append_value (segs.valid segment h) [value]
    · obtain ⟨i, hi, rfl⟩ := mem_mapIdx.mp h
      exact ofValueSegment_valid (by simp) _
  len_eq := by rw [segmentsBytes_appendValue, length_append, segs.len_eq]; rfl

end EncodedFrameSegments

section Push

open EncodedFrameSegments

variable (T : SymbolTable)

/-- A number, as a scratch word. -/
def pushLE (w n : ℕ) (out : EncodedFrameSegments) : Except HostProtocolError EncodedFrameSegments :=
  .ok (out.pushScratch (toLE w n))

def pushU8 (value : ℕ) : EncodedFrameSegments → Except HostProtocolError EncodedFrameSegments :=
  pushLE 1 value

def pushU16 (value : UInt16) : EncodedFrameSegments → Except HostProtocolError EncodedFrameSegments :=
  pushLE 2 value.toNat

def pushU32 (value : UInt32) : EncodedFrameSegments → Except HostProtocolError EncodedFrameSegments :=
  pushLE 4 value.toNat

def pushU64 (value : UInt64) : EncodedFrameSegments → Except HostProtocolError EncodedFrameSegments :=
  pushLE 8 value.toNat

def pushLen (len : ℕ) (out : EncodedFrameSegments) :
    Except HostProtocolError EncodedFrameSegments :=
  u32Len len >>= fun len => pushLE 4 len out

def pushIdentity (identity : Identity) :
    EncodedFrameSegments → Except HostProtocolError EncodedFrameSegments :=
  pushU64 identity.raw

/-- A string: its length is scratch and its bytes are borrowed. -/
def pushString (value : String) (out : EncodedFrameSegments) :
    Except HostProtocolError EncodedFrameSegments :=
  pushLen (utf8 value).length out >>= fun out => .ok (out.pushBorrowed (utf8 value))

def pushSymbolName (symbol : Symbol) (out : EncodedFrameSegments) :
    Except HostProtocolError EncodedFrameSegments :=
  match T.name symbol with
  | none => .error (.symbolNameUnavailable symbol.id.toNat)
  | some name => pushLen (utf8 name).length out >>= fun out => .ok (out.pushBorrowed (utf8 name))

def pushOptionalString :
    Option String → EncodedFrameSegments → Except HostProtocolError EncodedFrameSegments
  | some value, out => pushU8 1 out >>= pushString value
  | none, out => pushU8 0 out

def pushOptionalIdentity :
    Option Identity → EncodedFrameSegments → Except HostProtocolError EncodedFrameSegments
  | some value, out => pushU8 1 out >>= pushIdentity value
  | none, out => pushU8 0 out

def pushOptionalU64 :
    Option UInt64 → EncodedFrameSegments → Except HostProtocolError EncodedFrameSegments
  | some value, out => pushU8 1 out >>= pushU64 value
  | none, out => pushU8 0 out

/-- A value, by its segments. -/
def pushValue (value : Value) (out : EncodedFrameSegments) :
    Except HostProtocolError EncodedFrameSegments :=
  ofValueCodec (encodeValueSegmentsWithOptions T .default value) >>= fun segments =>
    .ok (out.appendValue segments)

def pushValues : List Value → EncodedFrameSegments → Except HostProtocolError EncodedFrameSegments
  | [], out => .ok out
  | value :: values, out => pushValue T value out >>= pushValues values

/-- `encode_payload_segments`, field by field as `encodePayload`. -/
def encodePayloadSegments (message : HostMessage) (out : EncodedFrameSegments) :
    Except HostProtocolError EncodedFrameSegments :=
  match message with
  | .hello protocolVersion minProtocolVersion featureBits hostName =>
    pushU16 protocolVersion out >>= pushU16 minProtocolVersion >>= pushU64 featureBits
      >>= pushString hostName
  | .helloAck protocolVersion featureBits => pushU16 protocolVersion out >>= pushU64 featureBits
  | .requestAccepted requestId taskId => pushU64 requestId out >>= pushOptionalU64 taskId
  | .requestRejected requestId code message =>
    pushU64 requestId out >>= pushSymbolName T code >>= pushString message
  | .openEndpoint requestId endpoint actor protocol grantToken =>
    pushU64 requestId out >>= pushIdentity endpoint >>= pushOptionalIdentity actor
      >>= pushString protocol >>= pushOptionalString grantToken
  | .closeEndpoint requestId endpoint => pushU64 requestId out >>= pushIdentity endpoint
  | .resolveIdentity requestId name => pushU64 requestId out >>= pushSymbolName T name
  | .identityResolved requestId name identity =>
    pushU64 requestId out >>= pushSymbolName T name >>= pushIdentity identity
  | .submitSource requestId endpoint actor source =>
    pushU64 requestId out >>= pushIdentity endpoint >>= pushIdentity actor >>= pushString source
  | .submitInput requestId endpoint value =>
    pushU64 requestId out >>= pushIdentity endpoint >>= pushValue T value
  | .outputReady endpoint buffered => pushIdentity endpoint out >>= pushU32 buffered
  | .drainOutput requestId endpoint limit =>
    pushU64 requestId out >>= pushIdentity endpoint >>= pushU32 limit
  | .outputBatch endpoint values =>
    pushIdentity endpoint out >>= pushLen values.length >>= pushValues T values
  | .endpointClosed endpoint reason => pushIdentity endpoint out >>= pushString reason
  | .taskCompleted taskId value => pushU64 taskId out >>= pushValue T value
  | .taskFailed taskId error => pushU64 taskId out >>= pushValue T error

end Push

/-! ## Reading -/

/-- The reader of a frame: an offset into it, and the symbols interned so far. -/
abbrev FrameReader (α : Type) := StateT (Cursor SymbolTable) (Except HostProtocolError) α

section Read

variable (bytes : Bytes)

/-- A run of bytes. -/
def readRun (len : ℕ) : FrameReader Bytes := ByteCodec.readExact bytes .unexpectedEnd len

/-- A number of `w` bytes. -/
def readNumber (w : ℕ) : FrameReader ℕ := readLE bytes .unexpectedEnd w

def readU8 : FrameReader ℕ := readNumber bytes 1

def readU16 : FrameReader UInt16 := UInt16.ofNat <$> readNumber bytes 2

def readU32 : FrameReader UInt32 := UInt32.ofNat <$> readNumber bytes 4

def readU64 : FrameReader UInt64 := UInt64.ofNat <$> readNumber bytes 8

/-- A number that is no identity is refused. -/
def readIdentity : FrameReader Identity := do
  let raw ← readU64 bytes
  match identityOfRaw raw.toNat with
  | some identity => pure identity
  | none => throw (.invalidIdentity raw.toNat)

/-- The value at the offset, which says itself where it ends. -/
def readFrameValue : FrameReader Value := fun c =>
  match decodeValueWithOptions c.env .default (bytes.drop c.offset) with
  | .ok (value, consumed, T) => .ok (value, ⟨c.offset + consumed, T⟩)
  | .error fault => .error (.value fault)

/-- Bytes that are no UTF-8 are refused. -/
def readString : FrameReader String := do
  let len ← readU32 bytes
  let run ← readRun bytes len.toNat
  match stringOfUtf8 run with
  | .ok value => pure value
  | .error _ => throw .invalidUtf8

/-- A name is interned as it is read. -/
def readSymbolName : FrameReader Symbol := do
  let name ← readString bytes
  fun c => .ok ((c.env.intern name).1, ⟨c.offset, (c.env.intern name).2⟩)

/-- A value behind a tag byte. -/
def readOptional {α : Type} (read : FrameReader α) : FrameReader (Option α) := do
  let tag ← readU8 bytes
  if tag = 0 then pure none
  else if tag = 1 then some <$> read
  else throw (.invalidOptionTag tag)

def readOptionalString : FrameReader (Option String) := readOptional bytes (readString bytes)

def readOptionalIdentity : FrameReader (Option Identity) := readOptional bytes (readIdentity bytes)

def readOptionalU64 : FrameReader (Option UInt64) := readOptional bytes (readU64 bytes)

def readValues : ℕ → FrameReader (List Value)
  | 0 => pure []
  | count + 1 => do
    let value ← readFrameValue bytes
    let values ← readValues count
    pure (value :: values)

/-- A number that names no type is refused. -/
def readMessageType : FrameReader MessageType := do
  let raw ← readU16 bytes
  match MessageType.fromRaw raw with
  | some messageType => pure messageType
  | none => throw (.unknownMessageType raw.toNat)

/-- The fields of a message of a type. -/
def readMessage : MessageType → FrameReader HostMessage
  | .hello => do
    let protocolVersion ← readU16 bytes
    let minProtocolVersion ← readU16 bytes
    let featureBits ← readU64 bytes
    let hostName ← readString bytes
    pure (.hello protocolVersion minProtocolVersion featureBits hostName)
  | .helloAck => do
    let protocolVersion ← readU16 bytes
    let featureBits ← readU64 bytes
    pure (.helloAck protocolVersion featureBits)
  | .requestAccepted => do
    let requestId ← readU64 bytes
    let taskId ← readOptionalU64 bytes
    pure (.requestAccepted requestId taskId)
  | .requestRejected => do
    let requestId ← readU64 bytes
    let code ← readSymbolName bytes
    let message ← readString bytes
    pure (.requestRejected requestId code message)
  | .openEndpoint => do
    let requestId ← readU64 bytes
    let endpoint ← readIdentity bytes
    let actor ← readOptionalIdentity bytes
    let protocol ← readString bytes
    let grantToken ← readOptionalString bytes
    pure (.openEndpoint requestId endpoint actor protocol grantToken)
  | .closeEndpoint => do
    let requestId ← readU64 bytes
    let endpoint ← readIdentity bytes
    pure (.closeEndpoint requestId endpoint)
  | .resolveIdentity => do
    let requestId ← readU64 bytes
    let name ← readSymbolName bytes
    pure (.resolveIdentity requestId name)
  | .identityResolved => do
    let requestId ← readU64 bytes
    let name ← readSymbolName bytes
    let identity ← readIdentity bytes
    pure (.identityResolved requestId name identity)
  | .submitSource => do
    let requestId ← readU64 bytes
    let endpoint ← readIdentity bytes
    let actor ← readIdentity bytes
    let source ← readString bytes
    pure (.submitSource requestId endpoint actor source)
  | .submitInput => do
    let requestId ← readU64 bytes
    let endpoint ← readIdentity bytes
    let value ← readFrameValue bytes
    pure (.submitInput requestId endpoint value)
  | .outputReady => do
    let endpoint ← readIdentity bytes
    let buffered ← readU32 bytes
    pure (.outputReady endpoint buffered)
  | .drainOutput => do
    let requestId ← readU64 bytes
    let endpoint ← readIdentity bytes
    let limit ← readU32 bytes
    pure (.drainOutput requestId endpoint limit)
  | .outputBatch => do
    let endpoint ← readIdentity bytes
    let count ← readU32 bytes
    let values ← readValues bytes count.toNat
    pure (.outputBatch endpoint values)
  | .endpointClosed => do
    let endpoint ← readIdentity bytes
    let reason ← readString bytes
    pure (.endpointClosed endpoint reason)
  | .taskCompleted => do
    let taskId ← readU64 bytes
    let value ← readFrameValue bytes
    pure (.taskCompleted taskId value)
  | .taskFailed => do
    let taskId ← readU64 bytes
    let error ← readFrameValue bytes
    pure (.taskFailed taskId error)

end Read

/-! ## Frames -/

/-- `MHP1`. -/
def magic : Bytes := [0x4d, 0x48, 0x50, 0x31]

/-- The frame: magic, length of what follows, message type, two bytes of flags, payload. -/
def encodeFrame (T : SymbolTable) (message : HostMessage) (out : Bytes) :
    Except HostProtocolError Bytes := do
  let payload ← encodePayload T message []
  let frameLen ← u32Len (payload.length + 4)
  .ok (out ++ magic ++ toLE 4 frameLen ++ toLE 2 message.messageType.raw.toNat ++ toLE 2 0 ++
    payload)

/-- The frame of a message, alone. -/
def encodedFrame (T : SymbolTable) (message : HostMessage) : Except HostProtocolError Bytes :=
  encodeFrame T message []

/-- Scratch words of a payload stand behind those of the frame's head. -/
def FrameSegment.shift (offset : ℕ) : FrameSegment → FrameSegment
  | .scratch index => .scratch (index + offset)
  | segment => segment

/-- A shifted segment has its bytes behind the head's scratch words. -/
theorem FrameSegment.bytes_shift (head : List Bytes) (scratch : List Bytes)
    (values : List ValueSegments) (segment : FrameSegment) :
    (segment.shift head.length).bytes (head ++ scratch) values = segment.bytes scratch values := by
  cases segment with
  | scratch index =>
    simp only [FrameSegment.shift, FrameSegment.bytes, getD_eq_getElem?_getD]
    rw [getElem?_append_right (Nat.le_add_left _ _), Nat.add_sub_cancel]
  | borrowed => rfl
  | valueScratch => rfl
  | valueBorrowed => rfl

theorem FrameSegment.Valid.shift {head : List Bytes} (h : segment.Valid scratch values) :
    (segment.shift head.length).Valid (head ++ scratch) values := by
  cases segment with
  | scratch index =>
    have hlt : index < scratch.length := h
    change index + head.length < (head ++ scratch).length
    rw [length_append]
    omega
  | borrowed => trivial
  | valueScratch => exact h
  | valueBorrowed => exact h

namespace EncodedFrameSegments

/-- The bytes of a payload behind its head. -/
theorem segmentsBytes_withPayload (head payload : EncodedFrameSegments)
    (hvalues : head.values = payload.values) :
    segmentsBytes (head.scratch ++ payload.scratch) head.values
      (head.segments ++ payload.segments.map (FrameSegment.shift head.scratch.length)) =
      head.toVec ++ payload.toVec := by
  rw [segmentsBytes, flatMap_append, ← segmentsBytes, segmentsBytes_append_scratch,
    flatMap_map, hvalues]
  congr 1
  exact flatMap_congr fun segment _ => FrameSegment.bytes_shift _ _ _ segment

/-- Put a payload behind a head that already has its values. -/
def withPayload (head payload : EncodedFrameSegments)
    (hvalues : head.values = payload.values) : EncodedFrameSegments where
  scratch := head.scratch ++ payload.scratch
  values := head.values
  segments := head.segments ++ payload.segments.map (FrameSegment.shift head.scratch.length)
  len := head.len + payload.len
  valid := by
    intro segment hmem
    rcases mem_append.mp hmem with h | h
    · exact FrameSegment.Valid.append_scratch (head.valid segment h) _
    · obtain ⟨inner, hinner, rfl⟩ := mem_map.mp h
      rw [hvalues]
      exact FrameSegment.Valid.shift (payload.valid inner hinner)
  len_eq := by
    rw [segmentsBytes_withPayload head payload hvalues, length_append, head.len_eq,
      payload.len_eq]
    rfl

end EncodedFrameSegments

/-- A frame that has its values and no segment yet. -/
def EncodedFrameSegments.ofValues (values : List ValueSegments) : EncodedFrameSegments where
  scratch := []
  values := values
  segments := []
  len := 0
  valid := nofun
  len_eq := by rw [segmentsBytes, flatMap_nil, length_nil]

/-- `encode_frame_segments`: the payload is encoded first, for its length. -/
def encodeFrameSegments (T : SymbolTable) (message : HostMessage) :
    Except HostProtocolError EncodedFrameSegments := do
  let payload ← encodePayloadSegments T message .empty
  let frameLen ← u32Len (payload.len + 4)
  let out := EncodedFrameSegments.ofValues payload.values
  let out := out.pushScratch (magic ++ toLE 4 frameLen)
  let out := out.pushScratch (toLE 2 message.messageType.raw.toNat ++ [0, 0])
  .ok (out.withPayload payload rfl)

/-- A frame is neither too long nor too short for its head. -/
def validateFrameLen (frameLen available maxFrameLen : ℕ) : Except HostProtocolError Unit :=
  if frameLen > maxFrameLen then .error (.frameTooLarge frameLen)
  else if frameLen < 4 then .error (.invalidFrameLength frameLen available)
  else .ok ()

/-- The length a frame declares for what follows its first eight bytes. -/
def declaredLen (bytes : Bytes) : ℕ := ofLE ((bytes.drop 4).take 4)

/-- `usize::MAX`. -/
def usizeMax : ℕ := 2 ^ 64 - 1

/-- The magic and the length of a frame that is all there. -/
def validateCompleteFrame (frame : Bytes) (maxFrameLen : ℕ) : Except HostProtocolError Unit :=
  if frame.length < 8 then .error (.unexpectedEnd 8 0 frame.length)
  else if frame.take 4 ≠ magic then .error (.invalidMagic (frame.take 4))
  else
    validateFrameLen (declaredLen frame) (frame.length - 8) maxFrameLen >>= fun _ =>
      if declaredLen frame > frame.length - 8 then
        .error (.unexpectedEnd (declaredLen frame) 8 frame.length)
      else if declaredLen frame < frame.length - 8 then
        .error (.trailingFrameBytes (frame.length - 8 - declaredLen frame))
      else .ok ()

/-- A frame with flags is refused. -/
def readFlags (frame : Bytes) (messageType : MessageType) : FrameReader HostMessage := do
  let flags ← readU16 frame
  if flags ≠ 0 then throw (.unsupportedFlags flags.toNat) else readMessage frame messageType

/-- The message of a frame, read from its first byte. -/
def readFrame (frame : Bytes) : FrameReader HostMessage := do
  let found ← readRun frame 4
  if found ≠ magic then throw (.invalidMagic found)
  else do
    let _ ← readU32 frame
    let messageType ← readMessageType frame
    readFlags frame messageType

/-- `decode_frame`: a whole frame, and nothing behind it. -/
def decodeFrame (T : SymbolTable) (frame : Bytes) :
    Except HostProtocolError (HostMessage × SymbolTable) := do
  validateCompleteFrame frame usizeMax
  let (message, c) ← readFrame frame ⟨0, T⟩
  if c.offset = frame.length then .ok (message, c.env)
  else .error (.trailingPayload (frame.length - c.offset))

/-! ## The stream decoder -/

/-- What has been pushed and not yet dropped; the bytes from `start` on are not consumed. -/
structure FrameDecoder where
  buffer : Bytes
  start : ℕ
  maxFrameLen : ℕ
  start_le : start ≤ buffer.length

namespace FrameDecoder

def new (maxFrameLen : ℕ) : FrameDecoder := ⟨[], 0, maxFrameLen, Nat.le_refl 0⟩

def availableBytes (d : FrameDecoder) : Bytes := d.buffer.drop d.start

/-- Drop the consumed bytes when they are all, many, or at least half. -/
def compactIfSparse (d : FrameDecoder) : FrameDecoder :=
  if d.start = 0 then d
  else if d.start = d.buffer.length then ⟨[], 0, d.maxFrameLen, Nat.le_refl 0⟩
  else if d.start ≥ 4096 ∨ d.start * 2 ≥ d.buffer.length then
    ⟨d.buffer.drop d.start, 0, d.maxFrameLen, Nat.zero_le _⟩
  else d

/-- `push_bytes`; consumed bytes may be dropped first. -/
def pushBytes (bytes : Bytes) (d : FrameDecoder) : FrameDecoder :=
  if bytes = [] then d
  else
    let d := d.compactIfSparse
    { d with
      buffer := d.buffer ++ bytes
      start_le := le_trans d.start_le (by simp) }

end FrameDecoder

/-- The length of the first frame, when it is all there. -/
def completeFrameLen (bytes : Bytes) (maxFrameLen : ℕ) : Except HostProtocolError (Option ℕ) :=
  if bytes.length < 8 then .ok none
  else if bytes.take 4 ≠ magic then .error (.invalidMagic (bytes.take 4))
  else
    validateFrameLen (declaredLen bytes) (bytes.length - 8) maxFrameLen >>= fun _ =>
      if bytes.length < declaredLen bytes + 8 then .ok none else .ok (some (declaredLen bytes + 8))

/-- A frame that is all there is in the buffer. -/
theorem completeFrameLen_le {bytes : Bytes} {maxFrameLen total : ℕ}
    (h : completeFrameLen bytes maxFrameLen = .ok (some total)) : total ≤ bytes.length := by
  unfold completeFrameLen at h
  split at h
  · cases h
  split at h
  · cases h
  rcases hlen : validateFrameLen (declaredLen bytes) (bytes.length - 8) maxFrameLen with _ | u
  · rw [hlen] at h; cases h
  rw [hlen] at h
  change (if bytes.length < declaredLen bytes + 8 then .ok none
    else .ok (some (declaredLen bytes + 8)) : Except HostProtocolError (Option ℕ)) = _ at h
  split at h
  · cases h
  obtain rfl := Option.some.inj (Except.ok.inj h)
  omega

namespace FrameDecoder

/-- The first frame, if it is all there. -/
def peekFrame (d : FrameDecoder) : Except HostProtocolError (Option Bytes) :=
  (completeFrameLen d.availableBytes d.maxFrameLen).map fun len =>
    len.map fun total => d.availableBytes.take total

/-- The first frame is consumed, if it is all there. -/
def consumeFrame (d : FrameDecoder) : Except HostProtocolError (Bool × FrameDecoder) :=
  match h : completeFrameLen d.availableBytes d.maxFrameLen with
  | .error e => .error e
  | .ok none => .ok (false, d)
  | .ok (some total) =>
    .ok (true, compactIfSparse
      { d with
        start := d.start + total
        start_le := by
          have hle := completeFrameLen_le h
          have hstart := d.start_le
          rw [availableBytes, length_drop] at hle
          omega })

def isEmpty (d : FrameDecoder) : Bool := d.availableBytes.length = 0

end FrameDecoder

end Mica
