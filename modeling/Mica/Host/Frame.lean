import Mica.Host.Message
import Mica.Var.RoundTrip

/-!
# Host/Frame — frames round trip over any stream

`wirePayload` is the payload of a message as a function of the message alone.  The byte encoder and
the segment encoder both append it and the reader reads it back, so a frame has the same bytes either
way and decodes to its message.  The stream decoder holds, after its consumed prefix, exactly the
bytes pushed and not yet consumed; so it can only ever be before, inside or behind one of the frames
it is being fed.
-/

open OrderCode LittleEndian ByteCodec List
open Except (ok.inj)

namespace Mica

open FrameWriter

/-! ## The format -/

section Wire

variable (T : SymbolTable)

/-- A length that fits 32 bits. -/
def wireLen (len : ℕ) : Except HostProtocolError Bytes := u32Len len >>= fun len => .ok (toLE 4 len)

/-- A string behind its length. -/
def wireString (value : String) : Except HostProtocolError Bytes :=
  join (wireLen (utf8 value).length) (.ok (utf8 value))

/-- A symbol, by its name. -/
def wireSymbolName (symbol : Symbol) : Except HostProtocolError Bytes :=
  match T.name symbol with
  | none => .error (.symbolNameUnavailable symbol.id.toNat)
  | some name => wireString name

/-- An option behind its tag byte. -/
def wireOptional {α : Type} (wire : α → Except HostProtocolError Bytes) :
    Option α → Except HostProtocolError Bytes
  | some value => join (.ok (toLE 1 1)) (wire value)
  | none => .ok (toLE 1 0)

def wireU16 (value : UInt16) : Except HostProtocolError Bytes := .ok (toLE 2 value.toNat)

def wireU32 (value : UInt32) : Except HostProtocolError Bytes := .ok (toLE 4 value.toNat)

def wireU64 (value : UInt64) : Except HostProtocolError Bytes := .ok (toLE 8 value.toNat)

def wireIdentity (identity : Identity) : Except HostProtocolError Bytes := wireU64 identity.raw

/-- A value, in the default encoding of the value codec. -/
def wireFrameValue (value : Value) : Except HostProtocolError Bytes :=
  ofValueCodec (wire T .default value.raw)

/-- Values one after the other. -/
def wireFrameValues : List Value → Except HostProtocolError Bytes
  | [] => .ok []
  | value :: values => join (wireFrameValue T value) (wireFrameValues values)

/-- The fields of a message, in the order they are written. -/
def wireFields : HostMessage → List (Except HostProtocolError Bytes)
  | .hello protocolVersion minProtocolVersion featureBits hostName =>
    [wireU16 protocolVersion, wireU16 minProtocolVersion, wireU64 featureBits, wireString hostName]
  | .helloAck protocolVersion featureBits => [wireU16 protocolVersion, wireU64 featureBits]
  | .requestAccepted requestId taskId => [wireU64 requestId, wireOptional wireU64 taskId]
  | .requestRejected requestId code message =>
    [wireU64 requestId, wireSymbolName T code, wireString message]
  | .openEndpoint requestId endpoint actor protocol grantToken =>
    [wireU64 requestId, wireIdentity endpoint, wireOptional wireIdentity actor,
      wireString protocol, wireOptional wireString grantToken]
  | .closeEndpoint requestId endpoint => [wireU64 requestId, wireIdentity endpoint]
  | .resolveIdentity requestId name => [wireU64 requestId, wireSymbolName T name]
  | .identityResolved requestId name identity =>
    [wireU64 requestId, wireSymbolName T name, wireIdentity identity]
  | .submitSource requestId endpoint actor source =>
    [wireU64 requestId, wireIdentity endpoint, wireIdentity actor, wireString source]
  | .submitInput requestId endpoint value =>
    [wireU64 requestId, wireIdentity endpoint, wireFrameValue T value]
  | .outputReady endpoint buffered => [wireIdentity endpoint, wireU32 buffered]
  | .drainOutput requestId endpoint limit =>
    [wireU64 requestId, wireIdentity endpoint, wireU32 limit]
  | .outputBatch endpoint values =>
    [wireIdentity endpoint, wireLen values.length, wireFrameValues T values]
  | .endpointClosed endpoint reason => [wireIdentity endpoint, wireString reason]
  | .taskCompleted taskId value => [wireU64 taskId, wireFrameValue T value]
  | .taskFailed taskId error => [wireU64 taskId, wireFrameValue T error]

/-- The payload of a message. -/
def wirePayload (message : HostMessage) : Except HostProtocolError Bytes :=
  (wireFields T message).foldl join (.ok [])

end Wire

/-! ## Both encoders append it -/

section Vec

variable (T : SymbolTable)

/-- Writing a number appends its bytes. -/
theorem appends_writeLE (w n : ℕ) : Appends id (writeLE w n) (.ok (toLE w n)) :=
  Appends.put fun _ => rfl

theorem appends_writeLen (len : ℕ) : Appends id (writeLen len) (wireLen len) :=
  Appends.guard fun len _ => appends_writeLE 4 len

/-- Writing a string appends its length and its bytes. -/
theorem appends_writeString (value : String) : Appends id (writeString value) (wireString value) :=
  (appends_writeLen _).bind (Appends.put fun _ => rfl)

/-- A symbol without a name is refused on both sides. -/
theorem appends_writeSymbolName (symbol : Symbol) :
    Appends id (writeSymbolName T symbol) (wireSymbolName T symbol) := by
  unfold writeSymbolName wireSymbolName
  cases T.name symbol with
  | none => exact Appends.error _
  | some name => exact appends_writeString name

theorem appends_writeOptionalString (value : Option String) :
    Appends id (writeOptionalString value) (wireOptional wireString value) := by
  cases value with
  | none => exact appends_writeLE 1 0
  | some value => exact (appends_writeLE 1 1).bind (appends_writeString value)

theorem appends_writeOptionalIdentity (value : Option Identity) :
    Appends id (writeOptionalIdentity value) (wireOptional wireIdentity value) := by
  cases value with
  | none => exact appends_writeLE 1 0
  | some value => exact (appends_writeLE 1 1).bind (appends_writeLE 8 _)

theorem appends_writeOptionalU64 (value : Option UInt64) :
    Appends id (writeOptionalU64 value) (wireOptional wireU64 value) := by
  cases value with
  | none => exact appends_writeLE 1 0
  | some value => exact (appends_writeLE 1 1).bind (appends_writeLE 8 _)

/-- The value codec appends its wire format. -/
theorem appends_encodeValue (value : Value) :
    Appends id (encodeValue T value) (wireFrameValue T value) := by
  intro out
  rw [encodeValue, encodeValueWithOptions_eq, wireFrameValue]
  cases wire T .default value.raw with
  | error e => rfl
  | ok bytes => rfl

theorem appends_encodeValues : ∀ values : List Value,
    Appends id (encodeValues T values) (wireFrameValues T values)
  | [] => Appends.put fun _ => (append_nil _).symm
  | value :: values => (appends_encodeValue T value).bind (appends_encodeValues values)

/-- A chain of encoders, seen from its first one. -/
theorem appends_first {ε σ : Type} {view : σ → Bytes} {f : σ → Except ε σ} {r : Except ε Bytes}
    (h : Appends view f r) : Appends view f (join (.ok []) r) := by
  rwa [join_nil_left]

/-- **The encoder of a payload appends it.** -/
theorem appends_encodePayload (message : HostMessage) :
    Appends id (encodePayload T message) (wirePayload T message) := by
  cases message with
  | hello =>
    exact (((appends_first (appends_writeLE 2 _)).bind (appends_writeLE 2 _)).bind
      (appends_writeLE 8 _)).bind (appends_writeString _)
  | helloAck => exact (appends_first (appends_writeLE 2 _)).bind (appends_writeLE 8 _)
  | requestAccepted => exact (appends_first (appends_writeLE 8 _)).bind (appends_writeOptionalU64 _)
  | requestRejected =>
    exact ((appends_first (appends_writeLE 8 _)).bind (appends_writeSymbolName T _)).bind
      (appends_writeString _)
  | openEndpoint =>
    exact ((((appends_first (appends_writeLE 8 _)).bind (appends_writeLE 8 _)).bind
      (appends_writeOptionalIdentity _)).bind (appends_writeString _)).bind
      (appends_writeOptionalString _)
  | closeEndpoint => exact (appends_first (appends_writeLE 8 _)).bind (appends_writeLE 8 _)
  | resolveIdentity => exact (appends_first (appends_writeLE 8 _)).bind (appends_writeSymbolName T _)
  | identityResolved =>
    exact ((appends_first (appends_writeLE 8 _)).bind (appends_writeSymbolName T _)).bind
      (appends_writeLE 8 _)
  | submitSource =>
    exact (((appends_first (appends_writeLE 8 _)).bind (appends_writeLE 8 _)).bind
      (appends_writeLE 8 _)).bind (appends_writeString _)
  | submitInput =>
    exact ((appends_first (appends_writeLE 8 _)).bind (appends_writeLE 8 _)).bind
      (appends_encodeValue T _)
  | outputReady => exact (appends_first (appends_writeLE 8 _)).bind (appends_writeLE 4 _)
  | drainOutput =>
    exact ((appends_first (appends_writeLE 8 _)).bind (appends_writeLE 8 _)).bind (appends_writeLE 4 _)
  | outputBatch =>
    exact ((appends_first (appends_writeLE 8 _)).bind (appends_writeLen _)).bind
      (appends_encodeValues T _)
  | endpointClosed => exact (appends_first (appends_writeLE 8 _)).bind (appends_writeString _)
  | taskCompleted => exact (appends_first (appends_writeLE 8 _)).bind (appends_encodeValue T _)
  | taskFailed => exact (appends_first (appends_writeLE 8 _)).bind (appends_encodeValue T _)

end Vec

section Segments

open EncodedFrameSegments

variable (T : SymbolTable)

/-- A scratch word adds its bytes. -/
theorem toVec_pushScratch (segs : EncodedFrameSegments) (bytes : Bytes) :
    (segs.pushScratch bytes).toVec = segs.toVec ++ bytes := segmentsBytes_pushScratch segs bytes

/-- A payload stands behind its head. -/
theorem toVec_withPayload (head payload : EncodedFrameSegments)
    (hvalues : head.values = payload.values) :
    (head.withPayload payload hvalues).toVec = head.toVec ++ payload.toVec :=
  segmentsBytes_withPayload head payload hvalues

/-- Pushing a number adds its bytes. -/
theorem appends_pushLE (w n : ℕ) : Appends toVec (pushLE w n) (.ok (toLE w n)) :=
  Appends.put fun segs => toVec_pushScratch segs _

/-- A borrowed run adds its bytes, also an empty one. -/
theorem toVec_pushBorrowed_frame (segs : EncodedFrameSegments) (bytes : Bytes) :
    (segs.pushBorrowed bytes).toVec = segs.toVec ++ bytes := by
  unfold pushBorrowed
  split
  · next h => rw [h, append_nil]
  · exact segmentsBytes_pushBorrowed segs bytes

theorem appends_pushLen (len : ℕ) : Appends toVec (pushLen len) (wireLen len) :=
  Appends.guard fun len _ => appends_pushLE 4 len

/-- Pushing a string adds its length and its bytes. -/
theorem appends_pushString (value : String) : Appends toVec (pushString value) (wireString value) :=
  (appends_pushLen _).bind (Appends.put fun segs => toVec_pushBorrowed_frame segs _)

/-- A symbol without a name is refused on both sides. -/
theorem appends_pushSymbolName (symbol : Symbol) :
    Appends toVec (pushSymbolName T symbol) (wireSymbolName T symbol) := by
  unfold pushSymbolName wireSymbolName
  cases T.name symbol with
  | none => exact Appends.error _
  | some name => exact appends_pushString name

theorem appends_pushOptionalString (value : Option String) :
    Appends toVec (pushOptionalString value) (wireOptional wireString value) := by
  cases value with
  | none => exact appends_pushLE 1 0
  | some value => exact (appends_pushLE 1 1).bind (appends_pushString value)

theorem appends_pushOptionalIdentity (value : Option Identity) :
    Appends toVec (pushOptionalIdentity value) (wireOptional wireIdentity value) := by
  cases value with
  | none => exact appends_pushLE 1 0
  | some value => exact (appends_pushLE 1 1).bind (appends_pushLE 8 _)

theorem appends_pushOptionalU64 (value : Option UInt64) :
    Appends toVec (pushOptionalU64 value) (wireOptional wireU64 value) := by
  cases value with
  | none => exact appends_pushLE 1 0
  | some value => exact (appends_pushLE 1 1).bind (appends_pushLE 8 _)

/-- The segments of a value spell its wire format. -/
theorem appends_pushValue (value : Value) :
    Appends toVec (pushValue T value) (wireFrameValue T value) := by
  have hsegs := emits_encodeValueToSegments T .default value.raw ValueSegments.empty
  intro out
  rw [pushValue, wireFrameValue, encodeValueSegmentsWithOptions]
  rcases hw : wire T .default value.raw with e | bytes
  · rw [hsegs.2 e hw]
    rfl
  obtain ⟨segs, hok, hvec⟩ := hsegs.1 bytes hw
  rw [hok]
  have htoVec : segs.toVec = bytes := hvec
  change Except.ok (out.appendValue segs).toVec = .ok (out.toVec ++ bytes)
  rw [← htoVec]
  exact congrArg Except.ok (segmentsBytes_appendValue out segs)

theorem appends_pushValues : ∀ values : List Value,
    Appends toVec (pushValues T values) (wireFrameValues T values)
  | [] => Appends.put fun _ => (append_nil _).symm
  | value :: values => (appends_pushValue T value).bind (appends_pushValues values)

/-- **The segmented encoder appends the same payload.** -/
theorem appends_encodePayloadSegments (message : HostMessage) :
    Appends toVec (encodePayloadSegments T message) (wirePayload T message) := by
  cases message with
  | hello =>
    exact (((appends_first (appends_pushLE 2 _)).bind (appends_pushLE 2 _)).bind
      (appends_pushLE 8 _)).bind (appends_pushString _)
  | helloAck => exact (appends_first (appends_pushLE 2 _)).bind (appends_pushLE 8 _)
  | requestAccepted => exact (appends_first (appends_pushLE 8 _)).bind (appends_pushOptionalU64 _)
  | requestRejected =>
    exact ((appends_first (appends_pushLE 8 _)).bind (appends_pushSymbolName T _)).bind
      (appends_pushString _)
  | openEndpoint =>
    exact ((((appends_first (appends_pushLE 8 _)).bind (appends_pushLE 8 _)).bind
      (appends_pushOptionalIdentity _)).bind (appends_pushString _)).bind
      (appends_pushOptionalString _)
  | closeEndpoint => exact (appends_first (appends_pushLE 8 _)).bind (appends_pushLE 8 _)
  | resolveIdentity => exact (appends_first (appends_pushLE 8 _)).bind (appends_pushSymbolName T _)
  | identityResolved =>
    exact ((appends_first (appends_pushLE 8 _)).bind (appends_pushSymbolName T _)).bind
      (appends_pushLE 8 _)
  | submitSource =>
    exact (((appends_first (appends_pushLE 8 _)).bind (appends_pushLE 8 _)).bind
      (appends_pushLE 8 _)).bind (appends_pushString _)
  | submitInput =>
    exact ((appends_first (appends_pushLE 8 _)).bind (appends_pushLE 8 _)).bind (appends_pushValue T _)
  | outputReady => exact (appends_first (appends_pushLE 8 _)).bind (appends_pushLE 4 _)
  | drainOutput =>
    exact ((appends_first (appends_pushLE 8 _)).bind (appends_pushLE 8 _)).bind (appends_pushLE 4 _)
  | outputBatch =>
    exact ((appends_first (appends_pushLE 8 _)).bind (appends_pushLen _)).bind (appends_pushValues T _)
  | endpointClosed => exact (appends_first (appends_pushLE 8 _)).bind (appends_pushString _)
  | taskCompleted => exact (appends_first (appends_pushLE 8 _)).bind (appends_pushValue T _)
  | taskFailed => exact (appends_first (appends_pushLE 8 _)).bind (appends_pushValue T _)

end Segments

/-! ## The reader reads it back -/

section Read

variable {T : SymbolTable} {bytes : Bytes}

/-- A number is read back from its bytes. -/
theorem reads_readNumber {w n : ℕ} (h : n < 256 ^ w) :
    Reads bytes T T (readNumber bytes w) (toLE w n) n := reads_readLE _ h

theorem readsBack_u16 (value : UInt16) :
    ReadsBack bytes T T (wireU16 value) (readU16 bytes) value := by
  have hnumber : Reads bytes T T (readNumber bytes 2) (toLE 2 value.toNat) value.toNat :=
    reads_readNumber value.toNat_lt
  have hread := hnumber.map UInt16.ofNat
  rw [UInt16.ofNat_toNat] at hread
  exact hread.back

theorem readsBack_u32 (value : UInt32) :
    ReadsBack bytes T T (wireU32 value) (readU32 bytes) value := by
  have hnumber : Reads bytes T T (readNumber bytes 4) (toLE 4 value.toNat) value.toNat :=
    reads_readNumber value.toNat_lt
  have hread := hnumber.map UInt32.ofNat
  rw [UInt32.ofNat_toNat] at hread
  exact hread.back

theorem readsBack_u64 (value : UInt64) :
    ReadsBack bytes T T (wireU64 value) (readU64 bytes) value := by
  have hnumber : Reads bytes T T (readNumber bytes 8) (toLE 8 value.toNat) value.toNat :=
    reads_readNumber value.toNat_lt
  have hread := hnumber.map UInt64.ofNat
  rw [UInt64.ofNat_toNat] at hread
  exact hread.back

/-- A length is checked against 32 bits before it is written. -/
theorem readsBack_len (len : ℕ) :
    ReadsBack bytes T T (wireLen len) (readU32 bytes) (UInt32.ofNat len) := by
  intro out hout
  unfold wireLen u32Len at hout
  split at hout
  · next hlt =>
    rw [← ok.inj hout]
    exact (reads_readNumber (show len < 256 ^ 4 by omega)).map UInt32.ofNat
  · cases hout

/-- A length that was written is the number it was. -/
theorem toNat_ofNat_of_wireLen {len : ℕ} {out : Bytes} (h : wireLen len = .ok out) :
    (UInt32.ofNat len).toNat = len := by
  unfold wireLen u32Len at h
  split at h
  · next hlt => exact UInt32.toNat_ofNat_of_lt' hlt
  · cases h

/-- An identity is read back with its bound. -/
theorem readsBack_identity (identity : Identity) :
    ReadsBack bytes T T (wireIdentity identity) (readIdentity bytes) identity := by
  have hid : identityOfRaw identity.raw.toNat = some identity := by
    have hle := identity.raw_le
    simp [identityOfRaw, hle]
  rw [← join_nil (wireIdentity identity)]
  refine (readsBack_u64 identity.raw).bind ?_
  rw [hid]
  exact ReadsBack.pure identity

/-- A string is read back from its UTF-8 bytes. -/
theorem readsBack_string (value : String) :
    ReadsBack bytes T T (wireString value) (readString bytes) value := by
  intro out hout
  obtain ⟨lenBytes, run, hlen, hrun, rfl⟩ := join_eq_ok hout
  obtain rfl := ok.inj hrun
  have hall : ∀ {reader : FrameReader String}, Reads bytes T T reader (utf8 value ++ []) value →
      Reads bytes T T reader (utf8 value) value := fun h => by rwa [append_nil] at h
  refine (readsBack_len _ lenBytes hlen).bind ?_
  rw [toNat_ofNat_of_wireLen hlen]
  refine hall ((reads_readExact _ (utf8 value)).bind ?_)
  rw [stringOfUtf8_utf8]
  exact Reads.pure value

/-- A name that is read is interned as the symbol it was written for. -/
theorem readsBack_symbolName (symbol : Symbol) :
    ReadsBack bytes T T (wireSymbolName T symbol) (readSymbolName bytes) symbol := by
  intro out hout
  unfold wireSymbolName at hout
  rcases hname : T.name symbol with _ | name
  · rw [hname] at hout; cases hout
  rw [hname] at hout
  rw [← append_nil out]
  refine (readsBack_string name out hout).bind ?_
  intro pre post _
  dsimp only
  rw [T.intern_name hname]
  rfl

/-- An option is read back from its tag byte. -/
theorem readsBack_optional {α : Type} {wire : α → Except HostProtocolError Bytes}
    {read : FrameReader α} (h : ∀ a, ReadsBack bytes T T (wire a) read a) (value : Option α) :
    ReadsBack bytes T T (wireOptional wire value) (readOptional bytes read) value := by
  have htag : ∀ tag < 256, Reads bytes T T (readU8 bytes) (toLE 1 tag) tag := fun tag htag =>
    reads_readNumber (by omega)
  cases value with
  | none =>
    have hread : Reads bytes T T (readOptional bytes read) (toLE 1 0 ++ []) none :=
      (htag 0 (by decide)).bind (Reads.pure none)
    rw [append_nil] at hread
    exact hread.back
  | some a => exact ((htag 1 (by decide)).back).bind ((h a).map some)

/-- A value is read back by the value codec. -/
theorem readsBack_value (hlen : bytes.length ≤ isizeMax) (value : Value) :
    ReadsBack bytes T T (wireFrameValue T value) (readFrameValue bytes) value := by
  intro out hout pre post hbytes
  have hwire : wire T .default value.raw = .ok out := by
    unfold wireFrameValue at hout
    rcases hw : wire T .default value.raw with _ | bytes
    · rw [hw] at hout; cases hout
    rw [hw] at hout
    rw [ok.inj hout]
  have hsuffix : (out ++ post).length ≤ isizeMax := by
    rw [hbytes, length_append] at hlen
    omega
  have hdecode := decodeValueWithOptions_wire hwire (importValue_self hwire) post hsuffix
  rw [readFrameValue, hbytes, drop_left, hdecode]

/-- Values are read back by their number. -/
theorem readsBack_values (hlen : bytes.length ≤ isizeMax) : ∀ values : List Value,
    ReadsBack bytes T T (wireFrameValues T values) (readValues bytes values.length) values
  | [] => ReadsBack.pure []
  | value :: values => by
    refine (readsBack_value hlen value).bind ?_
    rw [← join_nil (wireFrameValues T values)]
    exact (readsBack_values hlen values).bind (ReadsBack.pure _)

/-- **Reading a payload gives the message back**, in the process that wrote it. -/
theorem readsBack_message (hlen : bytes.length ≤ isizeMax) (message : HostMessage) :
    ReadsBack bytes T T (wirePayload T message) (readMessage bytes message.messageType) message := by
  have hpayload : wirePayload T message = (wireFields T message).foldr join (.ok []) := by
    rw [wirePayload, foldl_join]
    exact join_nil_left _
  rw [hpayload]
  cases message with
  | hello =>
    exact (readsBack_u16 _).bind ((readsBack_u16 _).bind ((readsBack_u64 _).bind
      ((readsBack_string _).bind (ReadsBack.pure _))))
  | helloAck => exact (readsBack_u16 _).bind ((readsBack_u64 _).bind (ReadsBack.pure _))
  | requestAccepted =>
    exact (readsBack_u64 _).bind ((readsBack_optional readsBack_u64 _).bind (ReadsBack.pure _))
  | requestRejected =>
    exact (readsBack_u64 _).bind ((readsBack_symbolName _).bind
      ((readsBack_string _).bind (ReadsBack.pure _)))
  | openEndpoint =>
    exact (readsBack_u64 _).bind ((readsBack_identity _).bind
      ((readsBack_optional readsBack_identity _).bind ((readsBack_string _).bind
        ((readsBack_optional readsBack_string _).bind (ReadsBack.pure _)))))
  | closeEndpoint => exact (readsBack_u64 _).bind ((readsBack_identity _).bind (ReadsBack.pure _))
  | resolveIdentity =>
    exact (readsBack_u64 _).bind ((readsBack_symbolName _).bind (ReadsBack.pure _))
  | identityResolved =>
    exact (readsBack_u64 _).bind ((readsBack_symbolName _).bind
      ((readsBack_identity _).bind (ReadsBack.pure _)))
  | submitSource =>
    exact (readsBack_u64 _).bind ((readsBack_identity _).bind ((readsBack_identity _).bind
      ((readsBack_string _).bind (ReadsBack.pure _))))
  | submitInput =>
    exact (readsBack_u64 _).bind ((readsBack_identity _).bind
      ((readsBack_value hlen _).bind (ReadsBack.pure _)))
  | outputReady => exact (readsBack_identity _).bind ((readsBack_u32 _).bind (ReadsBack.pure _))
  | drainOutput =>
    exact (readsBack_u64 _).bind ((readsBack_identity _).bind
      ((readsBack_u32 _).bind (ReadsBack.pure _)))
  | outputBatch endpoint values =>
    refine (readsBack_identity _).bind fun out hout => ?_
    obtain ⟨lenBytes, rest, hlenBytes, hrest, rfl⟩ := join_eq_ok hout
    refine (readsBack_len _ lenBytes hlenBytes).bind ?_
    rw [toNat_ofNat_of_wireLen hlenBytes]
    refine ReadsBack.bind (readsBack_values hlen values) ?_ rest hrest
    exact ReadsBack.pure _
  | endpointClosed => exact (readsBack_identity _).bind ((readsBack_string _).bind (ReadsBack.pure _))
  | taskCompleted =>
    exact (readsBack_u64 _).bind ((readsBack_value hlen _).bind (ReadsBack.pure _))
  | taskFailed => exact (readsBack_u64 _).bind ((readsBack_value hlen _).bind (ReadsBack.pure _))

end Read

/-! ## Frames -/

section Frame

variable {T : SymbolTable} {message : HostMessage} {frame payload : Bytes}

/-- The bytes of a frame around a payload. -/
def frameAround (messageType : MessageType) (payload : Bytes) : Bytes :=
  magic ++ (toLE 4 (payload.length + 4) ++ (toLE 2 messageType.raw.toNat ++ (toLE 2 0 ++ payload)))

/-- A frame has twelve bytes before its payload. -/
theorem length_frameAround (t : MessageType) (payload : Bytes) :
    (frameAround t payload).length = payload.length + 12 := by
  simp only [frameAround, magic, length_append, length_cons, length_nil, length_toLE]
  omega

/-- What either encoder does with the payload. -/
def wireFrame (T : SymbolTable) (message : HostMessage) : Except HostProtocolError Bytes :=
  wirePayload T message >>= fun payload => u32Len (payload.length + 4) >>= fun _ =>
    .ok (frameAround message.messageType payload)

/-- A length is accepted as it is, if it fits 32 bits. -/
theorem u32Len_eq_ok {n len : ℕ} (h : u32Len n = .ok len) : len = n ∧ n < 2 ^ 32 := by
  unfold u32Len at h
  split at h
  · next hlt => exact ⟨(ok.inj h).symm, hlt⟩
  · cases h

/-- The frame of a message. -/
theorem encodedFrame_eq (T : SymbolTable) (message : HostMessage) :
    encodedFrame T message = wireFrame T message := by
  have hpayload : (encodePayload T message []).map id = wirePayload T message :=
    (appends_encodePayload T message).start rfl
  rw [wireFrame, ← hpayload, encodedFrame, encodeFrame]
  cases encodePayload T message [] with
  | error e => rfl
  | ok payload =>
    change (u32Len (payload.length + 4) >>= _) = (u32Len (payload.length + 4) >>= _)
    rcases hlen : u32Len (payload.length + 4) with _ | len
    · rfl
    obtain ⟨rfl, -⟩ := u32Len_eq_ok hlen
    exact congrArg Except.ok (by simp only [frameAround, id, nil_append, append_assoc])

/-- The segments of a frame hold the bytes of the frame. -/
theorem toVec_encodeFrameSegments (T : SymbolTable) (message : HostMessage) :
    (encodeFrameSegments T message).map EncodedFrameSegments.toVec = wireFrame T message := by
  have hpayload : (encodePayloadSegments T message .empty).map EncodedFrameSegments.toVec =
      wirePayload T message := (appends_encodePayloadSegments T message).start rfl
  rw [wireFrame, ← hpayload, encodeFrameSegments]
  cases encodePayloadSegments T message .empty with
  | error e => rfl
  | ok payload =>
    have hlength : payload.len = payload.toVec.length := payload.len_eq
    change (u32Len (payload.len + 4) >>= _).map _ = (u32Len (payload.toVec.length + 4) >>= _)
    rw [hlength]
    rcases hlen : u32Len (payload.toVec.length + 4) with _ | len
    · rfl
    obtain ⟨rfl, -⟩ := u32Len_eq_ok hlen
    refine congrArg Except.ok ?_
    refine (toVec_withPayload _ _ _).trans ?_
    rw [toVec_pushScratch, toVec_pushScratch]
    simp [EncodedFrameSegments.toVec, EncodedFrameSegments.ofValues, segmentsBytes, frameAround,
      toLE]

/-- What a frame that could be written looks like. -/
theorem wireFrame_eq_ok (h : wireFrame T message = .ok frame) :
    ∃ payload, wirePayload T message = .ok payload ∧ payload.length + 4 < 2 ^ 32 ∧
      frame = frameAround message.messageType payload := by
  unfold wireFrame at h
  rcases hw : wirePayload T message with _ | payload
  · rw [hw] at h; cases h
  rw [hw] at h
  change (u32Len (payload.length + 4) >>= fun _ =>
    Except.ok (frameAround message.messageType payload)) = _ at h
  rcases hlen : u32Len (payload.length + 4) with _ | len
  · rw [hlen] at h; cases h
  rw [hlen] at h
  exact ⟨payload, rfl, (u32Len_eq_ok hlen).2, (ok.inj h).symm⟩

/-- The length that a frame declares. -/
theorem declaredLen_frameAround (t : MessageType) {payload : Bytes} (rest : Bytes)
    (h : payload.length + 4 < 2 ^ 32) :
    declaredLen (frameAround t payload ++ rest) = payload.length + 4 := by
  have htake : ((frameAround t payload ++ rest).drop 4).take 4 = toLE 4 (payload.length + 4) := by
    have hlen : (toLE 4 (payload.length + 4)).length = 4 := length_toLE _ _
    rw [frameAround, append_assoc]
    change (toLE 4 (payload.length + 4) ++ _ ++ rest).take 4 = _
    rw [append_assoc]
    exact take_left' hlen
  rw [declaredLen, htake, ofLE_toLE (by omega)]

/-- A length within the limits passes. -/
theorem validateFrameLen_eq_ok {frameLen available maxFrameLen : ℕ} (hmin : 4 ≤ frameLen)
    (hmax : frameLen ≤ maxFrameLen) : validateFrameLen frameLen available maxFrameLen = .ok () := by
  rw [validateFrameLen, if_neg (by omega), if_neg (by omega)]

/-- A whole frame passes the checks of its head. -/
theorem validateCompleteFrame_frameAround (t : MessageType) {payload : Bytes}
    (h : payload.length + 4 < 2 ^ 32) :
    validateCompleteFrame (frameAround t payload) usizeMax = .ok () := by
  have hlen := length_frameAround t payload
  have hdeclared : declaredLen (frameAround t payload) = payload.length + 4 := by
    simpa using declaredLen_frameAround t [] h
  have hmagic : (frameAround t payload).take 4 = magic := rfl
  rw [validateCompleteFrame, if_neg (by omega), if_neg (not_not.mpr hmagic), hdeclared,
    validateFrameLen_eq_ok (by omega) (by unfold usizeMax; omega)]
  change (if payload.length + 4 > _ then _ else _) = _
  rw [if_neg (by omega), if_neg (by omega)]

/-- Behind the flags stands the payload. -/
theorem reads_readFlags {bytes : Bytes} (hpayload : wirePayload T message = .ok payload)
    (hlen : bytes.length ≤ isizeMax) :
    Reads bytes T T (readFlags bytes message.messageType) (toLE 2 0 ++ payload) message :=
  (readsBack_u16 0 _ rfl).bind (readsBack_message hlen message payload hpayload)

/-- The type is read back from its two bytes. -/
theorem reads_readMessageType {bytes : Bytes} (t : MessageType) :
    Reads bytes T T (readMessageType bytes) (toLE 2 t.raw.toNat) t := by
  have hread : Reads bytes T T (readMessageType bytes) (toLE 2 t.raw.toNat ++ []) t := by
    refine (readsBack_u16 t.raw _ rfl).bind ?_
    rw [MessageType.fromRaw_raw]
    exact Reads.pure t
  rwa [append_nil] at hread

/-- Reading a frame from its first byte ends behind its last. -/
theorem reads_readFrame {bytes : Bytes} (hpayload : wirePayload T message = .ok payload)
    (hlt : payload.length + 4 < 2 ^ 32) (hlen : bytes.length ≤ isizeMax) :
    Reads bytes T T (readFrame bytes) (frameAround message.messageType payload) message := by
  refine (reads_readExact _ magic).bind ?_
  rw [if_neg (not_not.mpr rfl)]
  refine (Reads.map UInt32.ofNat (reads_readNumber (w := 4) (by omega))).bind ?_
  exact (reads_readMessageType _).bind (reads_readFlags hpayload hlen)

/-- **A frame decodes to its message.** -/
theorem decodeFrame_wireFrame (h : wireFrame T message = .ok frame) :
    decodeFrame T frame = .ok (message, T) := by
  obtain ⟨payload, hpayload, hlt, rfl⟩ := wireFrame_eq_ok h
  have hlen : (frameAround message.messageType payload).length ≤ isizeMax := by
    rw [length_frameAround]
    unfold isizeMax
    omega
  have hread := reads_readFrame hpayload hlt hlen [] [] (by rw [append_nil]; rfl)
  rw [length_nil, Nat.zero_add] at hread
  rw [decodeFrame, validateCompleteFrame_frameAround _ hlt]
  change (readFrame _ ⟨0, T⟩ >>= fun p => if p.2.offset = _ then _ else _) = _
  rw [hread]
  exact if_pos rfl

end Frame

end Mica
