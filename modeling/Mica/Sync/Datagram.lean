import Mica.Lib.LittleEndian
import Mica.Sync.View

/-!
# Sync/Datagram — sync envelopes in datagrams

The host sends an envelope as one datagram, or, if its encoding is longer than a datagram may be, as
numbered chunks under a message id.  The client keeps the chunks that have come, by message id, until a
message is complete, and decodes whatever the chunks spell.  A read that would throw is `none`.
-/

open OrderCode (Bytes)
open LittleEndian List

namespace Mica

/-! ## The host -/

def SyncMessageKind.raw : SyncMessageKind → UInt8
  | .haveView => 0x01
  | .needView => 0x02
  | .viewSnapshot => 0x03
  | .viewDelta => 0x04

structure SyncEnvelopeRef where
  kind : SyncMessageKind
  sessionId : UInt64
  viewId : UInt64
  clientRevision : UInt64
  clientSignature : UInt64
  serverRevision : UInt64
  serverSignature : UInt64
  payload : Bytes
  deriving DecidableEq

/-- `MSY1`. -/
def syncMagic : Bytes := [0x4d, 0x53, 0x59, 0x31]

/-- `MSC1`. -/
def chunkMagic : Bytes := [0x4d, 0x53, 0x43, 0x31]

def syncHeaderLen : ℕ := 56
def chunkHeaderLen : ℕ := 24
def syncDatagramMaxLen : ℕ := 1024
def syncChunkPayloadLen : ℕ := syncDatagramMaxLen - chunkHeaderLen

namespace SyncEnvelopeRef

/-- The six words of the header. -/
def words (e : SyncEnvelopeRef) : List ℕ :=
  [e.sessionId.toNat, e.viewId.toNat, e.clientRevision.toNat, e.clientSignature.toNat,
    e.serverRevision.toNat, e.serverSignature.toNat]

/-- `encoded_sync_envelope`. -/
def encoded (e : SyncEnvelopeRef) : Bytes :=
  syncMagic ++ [e.kind.raw, 0, 0, 0] ++ e.words.flatMap (toLE 8) ++ e.payload

/-- `div_ceil` by the length of a chunk. -/
def chunkCount (encoded : Bytes) : ℕ :=
  (encoded.length + (syncChunkPayloadLen - 1)) / syncChunkPayloadLen

/-- The chunk at an index of `chunks`. -/
def chunkAt (encoded : Bytes) (index : ℕ) : Bytes :=
  (encoded.drop (syncChunkPayloadLen * index)).take syncChunkPayloadLen

/-- The datagram of a chunk; `as u32` keeps the low bytes. -/
def chunkDatagram (messageId : UInt32) (encoded : Bytes) (index : ℕ) : Bytes :=
  chunkMagic ++ [messageId.toNat, index, chunkCount encoded, encoded.length,
    (chunkAt encoded index).length].flatMap (toLE 4) ++ chunkAt encoded index

/-- `sync_envelope_datagrams`, with the message id it takes if it needs one. -/
def datagrams (messageId : UInt32) (e : SyncEnvelopeRef) : List Bytes :=
  if e.encoded.length ≤ syncDatagramMaxLen then [e.encoded]
  else (range (chunkCount e.encoded)).map (chunkDatagram messageId e.encoded)

end SyncEnvelopeRef

/-! ## The client -/

/-- What `decodeSyncEnvelope` returns; numbers are texts. -/
inductive DecodedEnvelope (τ : Type) where
  | envelope (kind session view clientRevision clientSignature serverRevision serverSignature : String)
      (payload : τ)
  | raw (data : Bytes)
  deriving DecidableEq

def hasMagic (data magic : Bytes) : Bool := magic.isPrefixOf data

/-- A little-endian read of a `DataView`; out of bounds it throws. -/
def getLE (w : ℕ) (data : Bytes) (offset : ℕ) : Option ℕ :=
  if offset + w ≤ data.length then some (ofLE ((data.drop offset).take w)) else none

def kindName (raw : UInt8) : String :=
  if raw = 1 then "HaveView"
  else if raw = 2 then "NeedView"
  else if raw = 3 then "ViewSnapshot"
  else if raw = 4 then "ViewDelta"
  else "0x" ++ String.ofList (Nat.toDigits 16 raw.toNat)

section Client

variable {τ : Type} (decodeText : Bytes → τ)

def decodeSyncEnvelope (data : Bytes) : Option (DecodedEnvelope τ) :=
  if data.length < syncHeaderLen ∨ ¬ hasMagic data syncMagic then some (.raw data)
  else do
    let kind ← data[4]?
    let session ← getLE 8 data 8
    let view ← getLE 8 data 16
    let clientRevision ← getLE 8 data 24
    let clientSignature ← getLE 8 data 32
    let serverRevision ← getLE 8 data 40
    let serverSignature ← getLE 8 data 48
    some (.envelope (kindName kind) (toString session) (toString view) (toString clientRevision)
      (toString clientSignature) (toString serverRevision) (toString serverSignature)
      (decodeText (data.drop syncHeaderLen)))

/-- The chunks of a message that have come. -/
structure ChunkEntry where
  count : ℕ
  totalLen : ℕ
  received : ℕ
  parts : ℕ → Option Bytes

/-- By message id. -/
abbrev ChunkMap := ℕ → Option ChunkEntry

/-- The parts in order behind `combined`, if there are all of them and they fill `totalLen` bytes. -/
def combine (totalLen : ℕ) : List (Option Bytes) → Bytes → Option Bytes
  | [], combined => if combined.length = totalLen then some combined else none
  | none :: _, _ => none
  | some part :: parts, combined =>
    if totalLen < combined.length + part.length then none else combine totalLen parts
      (combined ++ part)

/-- A chunk is filed where none of its index is. -/
def ChunkEntry.file (entry : ChunkEntry) (index : ℕ) (part : Bytes) : ChunkEntry :=
  if (entry.parts index).isSome then entry
  else { entry with
    parts := Function.update entry.parts index (some part)
    received := entry.received + 1 }

/-- `decodeChunkedSyncEnvelope`: the answer, null if `none`, and the chunks that are kept. -/
def decodeChunkedSyncEnvelope (data : Bytes) (chunks : ChunkMap) :
    Option (Option (DecodedEnvelope τ) × ChunkMap) :=
  if ¬ hasMagic data chunkMagic then (decodeSyncEnvelope decodeText data).map fun d => (some d, chunks)
  else if data.length < chunkHeaderLen then some (none, chunks)
  else do
    let message ← getLE 4 data 4
    let index ← getLE 4 data 8
    let count ← getLE 4 data 12
    let totalLen ← getLE 4 data 16
    let chunkLen ← getLE 4 data 20
    if count = 0 ∨ count ≤ index ∨ data.length - chunkHeaderLen < chunkLen ∨ totalLen = 0 then
      some (none, chunks)
    else
      let entry := (chunks message).getD ⟨count, totalLen, 0, fun _ => none⟩
      if entry.count ≠ count ∨ entry.totalLen ≠ totalLen then
        some (none, Function.update chunks message none)
      else
        let entry := entry.file index ((data.drop chunkHeaderLen).take chunkLen)
        if entry.received ≠ count then some (none, Function.update chunks message (some entry))
        else
          match combine totalLen ((range count).map entry.parts) [] with
          | none => some (none, Function.update chunks message none)
          | some combined =>
            (decodeSyncEnvelope decodeText combined).map fun d =>
              (some d, Function.update chunks message none)

/-- The answers to datagrams as they arrive, and the chunks kept in the end. -/
def receiveAll (chunks : ChunkMap) : List Bytes → Option (List (Option (DecodedEnvelope τ)) × ChunkMap)
  | [] => some ([], chunks)
  | data :: rest =>
    (decodeChunkedSyncEnvelope decodeText data chunks).bind fun r =>
      (receiveAll r.2 rest).map fun out => (r.1 :: out.1, out.2)

end Client

end Mica
