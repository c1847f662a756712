import Mica.Kernel.Root
import Mica.Lib.ByteCodec
import Mica.Provider.FactCodec

/-!
# Provider/CommitCodec — the records of the commit log

A commit record is a magic, a version and three counted lists: catalog changes, fact changes and
buffer changes.  Numbers are big-endian, lengths are `u32`, symbols are written by name.  Metadata,
rules, tuples and buffer changes are stored as records of their own, in the same encoding.

Writing threads the output vector and reading an offset and the symbol table; a vector that would
pass `isize::MAX` bytes is a panic, which `sealRecord` says once at the end.  Memory is left out: what
`Vec::with_capacity` asks for on a count that was read, and the depth of the stack.
-/

open OrderCode ByteCodec

namespace Mica

/-- A commit as it is published, with the changes that its rules settled. -/
structure PublishedCommit where
  commit : RootCommit
  relationChanges : List FactChange
  settledRelationChangesAvailable : Bool

/-! ## Building metadata -/

namespace RelationMetadata

end RelationMetadata

/-- `RuleDefinition::new`. -/
def RuleDefinition.new (id : Identity) (rule : Rule) (source : String) : RuleDefinition :=
  ⟨id, rule, source, true⟩

namespace CommitRecord

/-! ## Writing -/

section Write

variable (T : SymbolTable)

def writeU8 (out : Bytes) (value : ℕ) : Except RecordError Bytes := .ok (out ++ toBE 1 value)

def writeU16 (out : Bytes) (value : ℕ) : Except RecordError Bytes := .ok (out ++ toBE 2 value)

def writeU64 (out : Bytes) (value : ℕ) : Except RecordError Bytes := .ok (out ++ toBE 8 value)

def writeIdentity (out : Bytes) (identity : Identity) : Except RecordError Bytes :=
  writeU64 out identity.raw.toNat

def writeBytes (out value : Bytes) : Except RecordError Bytes := do
  let out ← writeU32 out value.length
  .ok (out ++ value)

def writeString (out : Bytes) (value : String) : Except RecordError Bytes :=
  writeBytes out (utf8 value)

def writeSymbol (out : Bytes) (symbol : Symbol) : Except RecordError Bytes :=
  match T.name symbol with
  | none => .error (.unnamedSymbol symbol.id.toNat)
  | some name => writeString out name

/-- A length and that many items. -/
def writeCounted {α : Type} (write : α → Bytes → Except RecordError Bytes) (items : List α)
    (out : Bytes) : Except RecordError Bytes := do
  let out ← writeU32 out items.length
  writeEach write items out

def durabilityByte : RelationDurability → ℕ
  | .durable => 0
  | .volatile => 1

def bufferConflictByte : BufferConflictPolicy → ℕ
  | .reject => 0
  | .span => 1
  | .whole => 2

def encodeReplacement (replacement : Replacement) (out : Bytes) : Except RecordError Bytes := do
  let out ← writeU64 out replacement.start
  let out ← writeU64 out replacement.stop
  writeString out (String.ofList replacement.text)

def encodeBufferChange (change : BufferChange) (out : Bytes) : Except RecordError Bytes := do
  let out ← writeIdentity out change.metadata.id
  let out ← writeSymbol T out change.metadata.name
  let out ← writeU8 out (durabilityByte change.metadata.durability)
  let out ← writeU8 out (bufferConflictByte change.metadata.conflict)
  let out ← writeU64 out change.baseRevision
  let out ← writeU64 out change.revision
  let out ← writeU8 out change.deleted.toNat
  writeCounted encodeReplacement change.delta.replacements out

def encodeBufferChanges (changes : List BufferChange) (out : Bytes) : Except RecordError Bytes :=
  writeCounted (encodeBufferChange T) changes out

/-- `b"MICACMT3"`. -/
def magic : Bytes := utf8 "MICACMT3"

/-- A vector of bytes stays below `isize::MAX`. -/
def sealRecord (out : Bytes) : Except RecordError Bytes :=
  if out.length ≤ isizeMax then .ok out else .error .capacityOverflow

/-- `encode_buffer_changes_record`. -/
def encodeBufferChangesRecord (changes : List BufferChange) : Except RecordError Bytes :=
  encodeBufferChanges T changes [] >>= sealRecord

end Write

/-! ## Reading -/

abbrev RecordReader (α : Type) := StateT (Cursor SymbolTable) (Except RecordError) α

/-- A read of a fact record, on the cursor. -/
def ofRecord {α : Type} (read : ReaderState → Except RecordError (α × ReaderState)) :
    RecordReader α := fun c =>
  read ⟨c.offset, c.env⟩ >>= fun p => .ok (p.1, ⟨p.2.offset, p.2.table⟩)

section Read

variable (bytes : Bytes)

def readU8 : RecordReader ℕ := ofRecord (readRecordNumber bytes 1)

def readU16 : RecordReader ℕ := ofRecord (readRecordNumber bytes 2)

def readU64 : RecordReader ℕ := ofRecord (readRecordNumber bytes 8)

def readLen : RecordReader ℕ := ofRecord (readRecordLen bytes)

def readBytes : RecordReader Bytes := do
  let len ← readLen bytes
  ofRecord (readRecordExact bytes len)

def readString : RecordReader String := do
  let run ← readBytes bytes
  match stringOfUtf8 run with
  | .ok value => pure value
  | .error _ => throw .invalidUtf8

def readIdentity : RecordReader Identity := do
  let raw ← readU64 bytes
  match identityOfRaw raw with
  | some identity => pure identity
  | none => throw (.identityOutOfRange raw)

end Read

end CommitRecord

end Mica
