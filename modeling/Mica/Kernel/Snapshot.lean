import Mica.Kernel.Overlay
import Mica.Kernel.RowAlgebra
import Mica.Kernel.Rules
import Mica.Kernel.ScanOrder

/-!
# Kernel/Snapshot — published states of the kernel

A snapshot is what a version of the kernel holds: relation states by id, every installed rule, and the
commits that led to it.  Caches are left out: a derived relation reaches a scan as a relation state.
-/

open SortedList SortedSet

namespace Mica

inductive CatalogChange where
  | relationCreated (metadata : RelationMetadata)
  | ruleInstalled (rule : RuleDefinition)
  | ruleDisabled (rule : Identity)
  deriving DecidableEq

structure Commit where
  version : ℕ
  catalogChanges : List CatalogChange
  changes : List FactChange
  deriving DecidableEq

structure Snapshot (M : Type → Type) [ByteMap M] where
  version : ℕ
  relations : SortedMap RelationId (RelationState M)
  rules : List RuleDefinition
  commits : List Commit

/-! ## States that the kernel builds -/

/-- **The relation states of a kernel**: built from an empty relation by inserting checked tuples, by
removing tuples, and by loading checked tuples into an empty state. -/
inductive RelationState.Built {M : Type → Type} [ByteMap M]
    (check : RelationMetadata → Tuple → Prop) : RelationState M → Prop where
  | empty {metadata state} (h : RelationState.empty metadata = .ok state) : Built check state
  | insert {state t} (h : Built check state) (ht : check state.metadata t) :
      Built check (state.insert t).1
  | remove {state t} (h : Built check state) : Built check (state.remove t).1
  | load {state tuples} (h : Built check state) (hempty : state.rows = SortedSet.empty)
      (ht : ∀ t ∈ tuples, check state.metadata t) :
      Built check (state.applyOrderedAssertsToEmpty tuples).1

namespace RelationState

variable {M : Type → Type} [ByteMap M] {state : RelationState M}
  {check : RelationMetadata → Tuple → Prop}

theorem Built.valid (hcheck : ∀ metadata t, check metadata t → t.length = metadata.arity)
    (h : state.Built check) : state.Valid := by
  induction h with
  | empty h => exact (empty_spec h).2.2
  | insert _ ht ih => exact ih.insert (hcheck _ _ ht)
  | remove _ ih => exact ih.remove _
  | load _ hempty ht ih =>
    exact (ih.applyOrderedAssertsToEmpty hempty fun t hmem => hcheck _ _ (ht t hmem)).1

/-- Every row passes the check. -/
theorem Built.checked (hcheck : ∀ metadata t, check metadata t → t.length = metadata.arity)
    (h : state.Built check) : ∀ t ∈ state.rows, check state.metadata t := by
  induction h with
  | empty h =>
    intro t ht
    rw [(empty_spec h).2.1] at ht
    exact absurd ht (notMem_empty t)
  | insert _ hu ih =>
    intro t ht
    rw [insert_rows] at ht
    rw [insert_metadata]
    rcases mem_insert.mp ht with rfl | ht
    · exact hu
    · exact ih t ht
  | remove _ ih =>
    intro t ht
    rw [remove_rows] at ht
    rw [remove_metadata]
    exact ih t (mem_erase.mp ht).2
  | load hb hempty hts ih =>
    intro t ht
    obtain ⟨-, hmeta, hrows, -⟩ := (hb.valid hcheck).applyOrderedAssertsToEmpty hempty
      fun t hmem => hcheck _ _ (hts t hmem)
    rw [hrows] at ht
    rw [hmeta]
    exact hts t (mem_ofList.mp ht)

/-- A state of stored facts: each was checked by the transaction that wrote it. -/
def Stored (state : RelationState M) : Prop :=
  state.Built fun metadata t => metadata.validateTuple t = .ok ()

/-- A state of derived rows: each has the arity of the head. -/
def Derived (state : RelationState M) : Prop :=
  state.Built fun metadata t => t.length = metadata.arity

theorem Stored.valid (h : state.Stored) : state.Valid :=
  Built.valid (fun _ _ ht => (RelationMetadata.validateTuple_eq_ok.mp ht).1) h

theorem Stored.validateTuple (h : state.Stored) :
    ∀ t ∈ state.rows, state.metadata.validateTuple t = .ok () :=
  Built.checked (fun _ _ ht => (RelationMetadata.validateTuple_eq_ok.mp ht).1) h

theorem Derived.valid (h : state.Derived) : state.Valid := Built.valid (fun _ _ => id) h

end RelationState

namespace Snapshot

variable {M : Type → Type} [ByteMap M]

/-- `relation`. -/
def relation (snapshot : Snapshot M) (relation : RelationId) :
    Except KernelError (RelationState M) :=
  match snapshot.relations.get? relation with
  | some state => .ok state
  | none => .error (.unknownRelation relation)

/-- `scan_extensional`. -/
def scanExtensional (snapshot : Snapshot M) (relation : RelationId) (bindings : Bindings) :
    Except KernelError (List Tuple) :=
  (snapshot.relation relation).bind fun state => state.scan bindings

/-- The end of a scan: the derived rows of a relation that rules derive are merged in. -/
def mergeDerived (active : Bool) (derived : Except KernelError (Option (RelationState M)))
    (bindings : Bindings) (visible : List Tuple) : Except KernelError (List Tuple) :=
  if active then
    match derived with
    | .error e => .error e
    | .ok none => .ok visible
    | .ok (some state) => (state.scan bindings).map (unionOrderedTupleRows visible)
  else .ok visible

/-- `scan`, with the derived state of the relation as the caches or the rules give it. -/
def scan (snapshot : Snapshot M) (derived : Except KernelError (Option (RelationState M)))
    (relation : RelationId) (bindings : Bindings) : Except KernelError (List Tuple) :=
  (snapshot.scanExtensional relation bindings).bind
    (mergeDerived (relationHasActiveRuleHead snapshot.rules relation) derived bindings)

/-- **Every relation of the snapshot is one the kernel built**, under its own id. -/
def Stored (snapshot : Snapshot M) : Prop :=
  ∀ relation state, snapshot.relations.get? relation = some state →
    state.Stored ∧ state.metadata.id = relation

theorem relation_eq_ok {snapshot : Snapshot M} {relation : RelationId} {state : RelationState M} :
    snapshot.relation relation = .ok state ↔ snapshot.relations.get? relation = some state := by
  unfold Snapshot.relation
  split
  · next h => rw [h, Except.ok.injEq, Option.some.injEq]
  · next h => rw [h]; exact iff_of_false (nofun) (nofun)

end Snapshot

end Mica
