import Mica.Kernel.Metadata
import Mica.Lib.MapCount
import Mathlib.Data.Finset.Card
import Mathlib.Data.Prod.Lex

/-!
# Driver/VolatileFacts — the facts that endpoints own

An endpoint owns facts of volatile relations, kept in named scopes.  The driver counts for every
fact the endpoints that own it, and remembers of the first owner whether the fact had to be asserted
for it: only such a fact is retracted again when its last owner lets go.

The kernel is what the driver sees of it: the stored rows, and what the rules derive from them, which a
scan shows beside the stored rows.  A write is one transaction; whatever makes it fail is an argument.
A panic is `none`.
-/

open SortedList

namespace Mica

/-- A fact under the name of its relation. -/
structure NamedFact where
  relation : Symbol
  tuple : Tuple
  deriving DecidableEq

theorem NamedFact.toLex_injective :
    Function.Injective fun f : NamedFact => toLex (f.relation, f.tuple) := by
  rintro ⟨r, t⟩ ⟨r', t'⟩ h
  obtain ⟨rfl, rfl⟩ := Prod.mk.injEq _ _ _ _ ▸ toLex.injective h
  rfl

/-- The order of `(Symbol, Tuple)`. -/
instance : LinearOrder NamedFact := LinearOrder.lift' _ NamedFact.toLex_injective

/-! ## The kernel -/

def endpointRelation : RelationId := ⟨0x00dffffffffffff5, by decide⟩
def endpointActorRelation : RelationId := ⟨0x00dffffffffffff4, by decide⟩
def endpointPrincipalRelation : RelationId := ⟨0x00dffffffffffff3, by decide⟩
def endpointProtocolRelation : RelationId := ⟨0x00dffffffffffff2, by decide⟩
def endpointOpenRelation : RelationId := ⟨0x00dffffffffffff1, by decide⟩

/-- The relations that opening and closing an endpoint write themselves. -/
def endpointRelations : List RelationId :=
  [endpointRelation, endpointActorRelation, endpointPrincipalRelation, endpointProtocolRelation,
    endpointOpenRelation]

inductive SourceError where
  | unknownRelation (name : Symbol)
  | notVolatile (name : Symbol)
  | endpointAlreadyOpen
  | kernel (error : KernelError)
  deriving DecidableEq

/-- The relations, and the rows that the rules derive for one from the rows that are stored. -/
structure FactCatalog where
  relations : SortedMap RelationId RelationMetadata
  derived : Finset Fact → RelationId → Except KernelError (Finset Tuple)

namespace FactCatalog

/-- `relation_named`, `relation_metadata_named`: of several relations of a name, that of the least
id. -/
def relationNamed (c : FactCatalog) (name : Symbol) : Option (RelationId × RelationMetadata) :=
  c.relations.list.find? fun e => e.2.name = name

/-- `Snapshot::contains`, a scan with every column bound. -/
def contains (c : FactCatalog) (rows : Finset Fact) (relation : RelationId) (tuple : Tuple) :
    Except KernelError Bool :=
  match c.relations.get? relation with
  | none => .error (.unknownRelation relation)
  | some metadata =>
    if tuple.length ≠ metadata.arity then
      .error (.arityMismatch relation metadata.arity tuple.length)
    else
      match c.derived rows relation with
      | .error e => .error e
      | .ok derived => .ok (decide ((relation, tuple) ∈ rows) || decide (tuple ∈ derived))

def containsNamedTuple (c : FactCatalog) (rows : Finset Fact) (f : NamedFact) :
    Except SourceError Bool :=
  match c.relationNamed f.relation with
  | none => .error (.unknownRelation f.relation)
  | some e => (c.contains rows e.1 f.tuple).mapError .kernel

/-- The row that a tuple of a volatile relation is written to. -/
def volatileRow (c : FactCatalog) (f : NamedFact) : Except SourceError Fact :=
  match c.relationNamed f.relation with
  | none => .error (.unknownRelation f.relation)
  | some (id, metadata) =>
    if f.tuple.length ≠ metadata.arity then
      .error (.kernel (.arityMismatch id metadata.arity f.tuple.length))
    else if metadata.durability ≠ .volatile then .error (.notVolatile f.relation)
    else .ok (id, f.tuple)

def volatileTupleRelationsRequired (c : FactCatalog) (tuples : List NamedFact) :
    Except SourceError (List Fact) :=
  tuples.mapM c.volatileRow

/-- The end of a transaction that leads from `rows` to `next`: the rows, and how many changed. -/
def commit (failure : Option KernelError) (rows next : Finset Fact) :
    Except SourceError (Finset Fact × ℕ) :=
  match failure with
  | some e => .error (.kernel e)
  | none => .ok (next, (next \ rows).card + (rows \ next).card)

/-- `replace_volatile_tuples_named`. -/
def replaceVolatileTuples (c : FactCatalog) (failure : Option KernelError) (rows : Finset Fact)
    (retract assert : List NamedFact) : Except SourceError (Finset Fact × ℕ) :=
  match c.volatileTupleRelationsRequired retract with
  | .error e => .error e
  | .ok retract =>
    match c.volatileTupleRelationsRequired assert with
    | .error e => .error e
    | .ok assert =>
      if retract.isEmpty ∧ assert.isEmpty then .ok (rows, 0)
      else commit failure rows ((rows \ retract.toFinset) ∪ assert.toFinset)

/-- The rows of an endpoint that is open. -/
def endpointRows (endpoint : Identity) (principal actor : Option Identity) (protocol : Symbol) :
    List Fact :=
  [(endpointRelation, [.identity endpoint])] ++
    (principal.toList.map fun p => (endpointPrincipalRelation, [.identity endpoint, .identity p])) ++
    (actor.toList.map fun a => (endpointActorRelation, [.identity endpoint, .identity a])) ++
    [(endpointProtocolRelation, [.identity endpoint, .symbol protocol]),
      (endpointOpenRelation, [.identity endpoint])]

/-- `open_endpoint_with_context_and_volatile_tuples_named` of the runner. -/
def openEndpoint (c : FactCatalog) (failure : Option KernelError) (rows : Finset Fact)
    (endpoint : Identity) (principal actor : Option Identity) (protocol : Symbol)
    (tuples : List NamedFact) : Except SourceError (Finset Fact × ℕ) :=
  match c.volatileTupleRelationsRequired tuples with
  | .error e => .error e
  | .ok facts =>
    match c.contains rows endpointOpenRelation [.identity endpoint] with
    | .error e => .error (.kernel e)
    | .ok true => .error .endpointAlreadyOpen
    | .ok false =>
      commit failure rows
        (rows ∪ (endpointRows endpoint principal actor protocol).toFinset ∪ facts.toFinset)

/-- The rows that `retract_endpoint_rows` takes away. -/
def isEndpointRow (endpoint : Identity) (row : Fact) : Bool :=
  if row.1 = endpointRelation ∨ row.1 = endpointOpenRelation then row.2 = [.identity endpoint]
  else decide (row.1 ∈ endpointRelations) && decide (row.2.head? = some (.identity endpoint))

/-- `close_endpoint_and_retract_volatile_tuples_named`. -/
def closeEndpoint (c : FactCatalog) (failure : Option KernelError) (rows : Finset Fact)
    (endpoint : Identity) (tuples : List NamedFact) : Except SourceError (Finset Fact × ℕ) :=
  match c.volatileTupleRelationsRequired tuples with
  | .error e => .error e
  | .ok facts =>
    let kept := rows \ facts.toFinset
    match c.contains kept endpointOpenRelation [.identity endpoint] with
    | .error e => .error (.kernel e)
    | .ok false => commit failure rows kept
    | .ok true => commit failure rows (kept.filter fun row => ¬ isEndpointRow endpoint row)

end FactCatalog

/-! ## The driver -/

structure VolatileFactOwnership where
  owners : ℕ
  assertedByDriver : Bool
  deriving DecidableEq

abbrev FactOwners := SortedMap NamedFact VolatileFactOwnership

structure EndpointResources where
  scopes : SortedMap Symbol (SortedSet NamedFact)

/-- The facts of all scopes. -/
def EndpointResources.facts (resources : EndpointResources) : SortedSet NamedFact :=
  .ofList (resources.scopes.list.flatMap fun e => e.2.list)

/-- The facts of the scopes other than `scope`. -/
def EndpointResources.otherFacts (resources : EndpointResources) (scope : Symbol) :
    SortedSet NamedFact :=
  .ofList ((resources.scopes.list.filter fun e => e.1 ≠ scope).flatMap fun e => e.2.list)

inductive DriverError where
  | driverStopped
  | alreadyOpen (endpoint : Identity)
  | reservedIdentity (endpoint : Identity)
  | endpointCapacity
  | endpointClosed (endpoint : Identity)
  | cannotRetract (scope : Symbol) (fact : NamedFact)
  | source (error : SourceError)
  deriving DecidableEq

structure PoolState where
  running : Bool
  endpointCapacity : ℕ
  allocatedEphemeralIdentities : Finset Identity
  endpoints : SortedMap Identity EndpointResources
  closedEndpoints : Finset Identity
  volatileFactOwners : FactOwners

/-- The driver, and the rows that the kernel stores. -/
structure FactWorld where
  state : PoolState
  rows : Finset Fact

/-- What an operation returns, and what it leaves. -/
abbrev FactAnswer := Except DriverError ℕ × FactWorld

namespace FactOwners

/-- What a fact is taken with: nothing if it has owners, else whether the driver is to assert it. -/
def provenance (c : FactCatalog) (rows : Finset Fact) (owners : FactOwners) (f : NamedFact) :
    Except DriverError (NamedFact × Option Bool) :=
  if (owners.get? f).isSome then .ok (f, none)
  else
    match c.containsNamedTuple rows f with
    | .error e => .error (.source e)
    | .ok present => .ok (f, some !present)

/-- The facts that are to be asserted. -/
def asserted (taken : List (NamedFact × Option Bool)) : List NamedFact :=
  (taken.filter fun e => e.2 = some true).map Prod.fst

/-- The facts that go with their last owner. -/
def retracted (owners : FactOwners) (lost : List NamedFact) : List NamedFact :=
  lost.filter fun f => (owners.get? f).any fun o => o.owners == 1 && o.assertedByDriver

def take (owners : FactOwners) (e : NamedFact × Option Bool) : Option FactOwners :=
  match owners.get? e.1 with
  | some o => some (owners.insert e.1 { o with owners := o.owners + 1 })
  | none => e.2.map fun asserted => owners.insert e.1 ⟨1, asserted⟩

def letGo (owners : FactOwners) (f : NamedFact) (o : VolatileFactOwnership) : Option FactOwners :=
  if o.owners = 0 then none
  else if o.owners = 1 then some (owners.erase f)
  else some (owners.insert f { o with owners := o.owners - 1 })

/-- A replaced scope expects an owner. -/
def release (owners : FactOwners) (f : NamedFact) : Option FactOwners :=
  (owners.get? f).bind (owners.letGo f)

/-- A closed endpoint passes over a fact without one. -/
def releaseOwned (owners : FactOwners) (f : NamedFact) : Option FactOwners :=
  match owners.get? f with
  | none => some owners
  | some o => owners.letGo f o

end FactOwners

namespace FactWorld

def ephemeralHostIdentityStart : ℕ := 0x00ff000000000000
def ephemeralHostIdentityEnd : ℕ := 0x00ff800000000000

/-- Why an endpoint may not open, if it may not. -/
def openRefusal (s : PoolState) (endpoint : Identity) : Option DriverError :=
  if ¬ s.running then some .driverStopped
  else if (s.endpoints.get? endpoint).isSome then some (.alreadyOpen endpoint)
  else if (ephemeralHostIdentityStart ≤ endpoint.raw.toNat ∧
      endpoint.raw.toNat < ephemeralHostIdentityEnd) ∧ endpoint ∉ s.allocatedEphemeralIdentities then
    some (.reservedIdentity endpoint)
  else if s.endpointCapacity ≤ s.endpoints.list.length then some .endpointCapacity
  else none

/-- `open_endpoint_with_context_and_volatile_tuples_named`; `endpointScope` is the symbol
`endpoint`. -/
def openEndpoint (c : FactCatalog) (endpointScope : Symbol) (w : FactWorld) (endpoint : Identity)
    (principal actor : Option Identity) (protocol : Symbol) (tuples : List NamedFact)
    (failure : Option KernelError) : Option FactAnswer :=
  let tuples := SortedSet.ofList tuples
  match openRefusal w.state endpoint with
  | some e => some (.error e, w)
  | none =>
    match tuples.list.mapM (w.state.volatileFactOwners.provenance c w.rows) with
    | .error e => some (.error e, w)
    | .ok ownership =>
      match c.openEndpoint failure w.rows endpoint principal actor protocol
        (FactOwners.asserted ownership) with
      | .error e => some (.error (.source e), w)
      | .ok (rows, changes) =>
        (ownership.foldlM FactOwners.take w.state.volatileFactOwners).map fun owners =>
          (.ok changes,
            { rows := rows
              state := { w.state with
                volatileFactOwners := owners
                endpoints := w.state.endpoints.insert endpoint
                  ⟨SortedMap.empty.insert endpointScope tuples⟩
                closedEndpoints := w.state.closedEndpoints.erase endpoint } })

/-- `mark_endpoint_closed`, the start of a close. -/
def markEndpointClosed (w : FactWorld) (endpoint : Identity) : FactWorld :=
  { w with state := { w.state with closedEndpoints := insert endpoint w.state.closedEndpoints } }

/-- The end of `close_endpoint_resources`, once the endpoint is idle. -/
def closeEndpointResources (c : FactCatalog) (w : FactWorld) (endpoint : Identity)
    (failure : Option KernelError) : Option FactAnswer :=
  match w.state.endpoints.get? endpoint with
  | none => some (.ok 0, w)
  | some resources =>
    let owned := resources.facts.list
    match c.closeEndpoint failure w.rows endpoint (w.state.volatileFactOwners.retracted owned) with
    | .error e => some (.error (.source e), w)
    | .ok (rows, changes) =>
      (owned.foldlM FactOwners.releaseOwned w.state.volatileFactOwners).map fun owners =>
        (.ok changes,
          { rows := rows
            state := { w.state with
              volatileFactOwners := owners
              endpoints := w.state.endpoints.erase endpoint } })

def ensureEndpointResourceUpdate (s : PoolState) (endpoint : Identity) : Option DriverError :=
  if ¬ s.running then some .driverStopped
  else if endpoint ∈ s.closedEndpoints ∨ (s.endpoints.get? endpoint).isNone then
    some (.endpointClosed endpoint)
  else none

/-- The facts of a scope. -/
def scopeFacts (s : PoolState) (endpoint : Identity) (scope : Symbol) : SortedSet NamedFact :=
  ((s.endpoints.get? endpoint).bind fun resources => resources.scopes.get? scope).getD SortedSet.empty

/-- `replace_endpoint_volatile_scope_locked`. -/
def replaceScopeLocked (c : FactCatalog) (w : FactWorld) (endpoint : Identity) (scope : Symbol)
    (next : SortedSet NamedFact) (failure : Option KernelError) : Option FactAnswer :=
  match w.state.endpoints.get? endpoint with
  | none => none
  | some resources =>
    let previous := (resources.scopes.get? scope).getD SortedSet.empty
    let other := resources.otherFacts scope
    let previousOwned := SortedSet.ofList (previous.list ++ other.list)
    let nextOwned := SortedSet.ofList (next.list ++ other.list)
    let lost := (previousOwned.filter fun f => f ∉ nextOwned).list
    let gained := (nextOwned.filter fun f => f ∉ previousOwned).list
    match gained.mapM (w.state.volatileFactOwners.provenance c w.rows) with
    | .error e => some (.error e, w)
    | .ok ownership =>
      match c.replaceVolatileTuples failure w.rows (w.state.volatileFactOwners.retracted lost)
        (FactOwners.asserted ownership) with
      | .error e => some (.error (.source e), w)
      | .ok (rows, changes) =>
        (lost.foldlM FactOwners.release w.state.volatileFactOwners).bind fun owners =>
          (ownership.foldlM FactOwners.take owners).map fun owners =>
            (.ok changes,
              { rows := rows
                state := { w.state with
                  volatileFactOwners := owners
                  endpoints := w.state.endpoints.insert endpoint
                    ⟨resources.scopes.insert scope next⟩ } })

def replaceEndpointVolatileScope (c : FactCatalog) (w : FactWorld) (endpoint : Identity)
    (scope : Symbol) (facts : List NamedFact) (failure : Option KernelError) : Option FactAnswer :=
  match ensureEndpointResourceUpdate w.state endpoint with
  | some e => some (.error e, w)
  | none => w.replaceScopeLocked c endpoint scope (.ofList facts) failure

/-- What a scope holds after a diff. -/
def diffScope (previous retract : SortedSet NamedFact) (assert : List NamedFact) :
    SortedSet NamedFact :=
  .ofList ((previous.filter fun f => f ∉ retract).list ++ assert)

def applyEndpointVolatileScopeDiff (c : FactCatalog) (w : FactWorld) (endpoint : Identity)
    (scope : Symbol) (retract assert : List NamedFact) (failure : Option KernelError) :
    Option FactAnswer :=
  match ensureEndpointResourceUpdate w.state endpoint with
  | some e => some (.error e, w)
  | none =>
    let previous := scopeFacts w.state endpoint scope
    let retract := SortedSet.ofList retract
    match (retract.filter fun f => f ∉ previous).list.head? with
    | some f => some (.error (.cannotRetract scope f), w)
    | none => w.replaceScopeLocked c endpoint scope (diffScope previous retract assert) failure

end FactWorld

/-! ## Runs -/

/-- An operation, with what the kernel answers; the two ends of a close are steps of their own. -/
inductive FactStep where
  | openEndpoint (endpoint : Identity) (principal actor : Option Identity) (protocol : Symbol)
      (tuples : List NamedFact) (failure : Option KernelError)
  | markEndpointClosed (endpoint : Identity)
  | closeEndpointResources (endpoint : Identity) (failure : Option KernelError)
  | replaceScope (endpoint : Identity) (scope : Symbol) (facts : List NamedFact)
      (failure : Option KernelError)
  | scopeDiff (endpoint : Identity) (scope : Symbol) (retract assert : List NamedFact)
      (failure : Option KernelError)
  /-- The lifecycle and the allocated identities are not the endpoints' own. -/
  | lifecycle (running : Bool) (allocated : Finset Identity)

/-- The facts that a step may come to own. -/
def FactStep.facts : FactStep → List NamedFact
  | openEndpoint _ _ _ _ tuples _ => tuples
  | replaceScope _ _ facts _ => facts
  | scopeDiff _ _ _ assert _ => assert
  | _ => []

def FactWorld.apply (c : FactCatalog) (endpointScope : Symbol) (w : FactWorld) :
    FactStep → Option FactAnswer
  | .openEndpoint endpoint principal actor protocol tuples failure =>
    w.openEndpoint c endpointScope endpoint principal actor protocol tuples failure
  | .markEndpointClosed endpoint => some (.ok 0, w.markEndpointClosed endpoint)
  | .closeEndpointResources endpoint failure => w.closeEndpointResources c endpoint failure
  | .replaceScope endpoint scope facts failure =>
    w.replaceEndpointVolatileScope c endpoint scope facts failure
  | .scopeDiff endpoint scope retract assert failure =>
    w.applyEndpointVolatileScopeDiff c endpoint scope retract assert failure
  | .lifecycle running allocated =>
    some (.ok 0, { w with state := { w.state with
      running := running, allocatedEphemeralIdentities := allocated } })

end Mica
