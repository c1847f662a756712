import Mica.Var.Construct
import Mica.Var.Tuple

/-!
# Kernel/Metadata — relations as the catalog describes them

A relation has an arity, a list of secondary indexes, a conflict policy and a durability.  The
kernel checks one thing about them, that every position an index or a key mentions is a column
(`validateMetadata`); in particular an index may mention a column twice, or all of them in another
order.
-/

namespace Mica

abbrev RelationId := Identity

theorem Identity.raw_injective : Function.Injective fun i : Identity => i.raw.toNat := by
  rintro ⟨a, _⟩ ⟨b, _⟩ h
  obtain rfl : a = b := UInt64.toNat_inj.mp h
  rfl

instance : LinearOrder Identity :=
  LinearOrder.lift' (fun i : Identity => i.raw.toNat) Identity.raw_injective

/-! ## Facts -/

/-- A fact: a relation and a tuple. -/
abbrev Fact := RelationId × Tuple

inductive FactChangeKind where
  | assert
  | retract
  deriving DecidableEq

theorem FactChangeKind.eq_assert_or_retract : ∀ kind : FactChangeKind,
    kind = .assert ∨ kind = .retract
  | .assert => .inl rfl
  | .retract => .inr rfl

structure FactChange where
  relation : RelationId
  tuple : Tuple
  kind : FactChangeKind
  deriving DecidableEq

/-! ## Metadata -/

inductive RelationDurability where
  | durable
  | volatile
  deriving DecidableEq

/-- What two transactions may not both do to a relation. -/
inductive ConflictPolicy where
  | set
  | functional (keyPositions : List ℕ)
  | eventAppend
  deriving DecidableEq

/-- The columns of a secondary index, in key order. -/
structure TupleIndexSpec where
  positions : List ℕ
  deriving DecidableEq

structure RelationMetadata where
  id : RelationId
  name : Symbol
  arity : ℕ
  argumentNames : List (Option Symbol)
  indexes : List TupleIndexSpec
  conflictPolicy : ConflictPolicy
  durability : RelationDurability
  deriving DecidableEq

/-- `TupleIndexSpec::all_positions`. -/
def TupleIndexSpec.allPositions (arity : ℕ) : TupleIndexSpec := ⟨List.range arity⟩

/-- `RelationMetadata::new`: a durable set with the natural index. -/
def RelationMetadata.new (id : RelationId) (name : Symbol) (arity : ℕ) : RelationMetadata where
  id := id
  name := name
  arity := arity
  argumentNames := List.replicate arity none
  indexes := [TupleIndexSpec.allPositions arity]
  conflictPolicy := .set
  durability := .durable

/-- Whether a scan binds column `p`. -/
def Bindings.isBound (bindings : Bindings) (p : ℕ) : Bool := bindings[p]?.join.isSome

/-- `TupleIndexSpec::leading_bound_count`. -/
def TupleIndexSpec.leadingBoundCount (spec : TupleIndexSpec) (bindings : Bindings) : ℕ :=
  (spec.positions.takeWhile bindings.isBound).length

/-! ## Errors -/

inductive RuleError where
  | unstratifiedNegation
  | unsafeNegation (relation : RelationId)
  | unsafeGuard
  | unboundHeadVariable (name : Symbol)
  deriving DecidableEq

inductive ConflictKind where
  | assertRetract
  | functionalKeyChanged
  deriving DecidableEq

structure Conflict where
  relation : RelationId
  tuple : Tuple
  kind : ConflictKind
  deriving DecidableEq

inductive TextError where
  | invalidRange | invalidLine
  deriving DecidableEq

inductive DeltaError where
  | invalidRange | outOfOrder | foreignProvenance | budgetExceeded | conflict
  deriving DecidableEq

inductive BufferError where
  | unknown | deleted | alreadyExists | metadataMismatch
  | conflict (expected actual : ℕ)
  | structureConflict (expected actual : ℕ)
  | revisionExhausted
  | text (error : TextError)
  | delta (error : DeltaError)
  | invalidRecovery | alreadyApplied | tokenInUse | resultsFull
  deriving DecidableEq

inductive KernelError where
  | buffer (buffer : Identity) (error : BufferError)
  | unknownRelation (relation : RelationId)
  | unknownRule (rule : Identity)
  | relationAlreadyExists (relation : RelationId)
  | arityMismatch (relation : RelationId) (expected actual : ℕ)
  | nonPersistentValue (relation : RelationId) (tuple : Tuple)
  | functionalKeyViolation (relation : RelationId) (existing attempted : Tuple)
  | invalidIndex (relation : RelationId) (position arity : ℕ)
  | staleStagedSnapshot (expected actual : ℕ)
  | persistence (message : String)
  | differentialWeightOverflow (relation : RelationId) (operation : String) (version : ℕ)
      (left right : ℤ)
  | negativeDifferentialSupport (relation : RelationId) (tuple : Tuple) (version : ℕ) (support : ℤ)
  | rule (error : RuleError)
  | conflict (conflict : Conflict)
  deriving DecidableEq

/-! ## What the kernel checks -/

/-- The columns that a functional relation is keyed by; no columns for the other policies. -/
def ConflictPolicy.keyPositions : ConflictPolicy → List ℕ
  | functional keyPositions => keyPositions
  | _ => []

/-- `validate_metadata`: the first position that is not a column, indexes before the key. -/
def validateMetadata (metadata : RelationMetadata) : Except KernelError Unit :=
  let positions := metadata.indexes.flatMap TupleIndexSpec.positions ++
    metadata.conflictPolicy.keyPositions
  match positions.find? fun p => decide (metadata.arity ≤ p) with
  | some p => .error (.invalidIndex metadata.id p metadata.arity)
  | none => .ok ()

/-- **What accepted metadata promises.** -/
theorem validateMetadata_eq_ok {metadata : RelationMetadata} :
    validateMetadata metadata = .ok () ↔
      (∀ spec ∈ metadata.indexes, ∀ p ∈ spec.positions, p < metadata.arity) ∧
        ∀ p ∈ metadata.conflictPolicy.keyPositions, p < metadata.arity := by
  have hnone : validateMetadata metadata = .ok () ↔
      ∀ p ∈ metadata.indexes.flatMap TupleIndexSpec.positions ++
        metadata.conflictPolicy.keyPositions, p < metadata.arity := by
    rw [validateMetadata]
    split
    · next p hp =>
      refine iff_of_false (nofun) fun h => ?_
      have hle : metadata.arity ≤ p := by simpa using List.find?_some hp
      exact absurd (h p (List.mem_of_find?_eq_some hp)) hle.not_gt
    · next hp =>
      refine iff_of_true rfl fun p hmem => not_le.mp fun hle => ?_
      exact List.find?_eq_none.mp hp p hmem (decide_eq_true hle)
  rw [hnone, List.forall_mem_append, List.forall_mem_flatMap]

mutual

/-- `Value::is_persistable`: no capability and no function anywhere inside. -/
def RawValue.isPersistable : RawValue → Bool
  | .capability _ | .function _ => false
  | .list values => RawValue.arePersistable values
  | .map entries => RawValue.entriesPersistable entries
  | .range start none => start.isPersistable
  | .range start (some stop) => start.isPersistable && stop.isPersistable
  | .error _ _ (some value) => value.isPersistable
  | .frob _ value => value.isPersistable
  | .relation _ rows => RawValue.rowsPersistable rows
  | _ => true
  termination_by structural v => v

def RawValue.arePersistable : List RawValue → Bool
  | [] => true
  | v :: values => v.isPersistable && RawValue.arePersistable values
  termination_by structural values => values

def RawValue.entriesPersistable : List (RawValue × RawValue) → Bool
  | [] => true
  | (k, v) :: entries =>
    (k.isPersistable && v.isPersistable) && RawValue.entriesPersistable entries
  termination_by structural entries => entries

def RawValue.rowsPersistable : List (List RawValue) → Bool
  | [] => true
  | row :: rows => RawValue.arePersistable row && RawValue.rowsPersistable rows
  termination_by structural rows => rows

end

/-- `Value::is_persistable`. -/
def Value.isPersistable (v : Value) : Bool := v.raw.isPersistable

/-- `RelationState::validate_tuple`. -/
def RelationMetadata.validateTuple (metadata : RelationMetadata) (tuple : Tuple) :
    Except KernelError Unit :=
  if metadata.arity ≠ tuple.length then
    .error (.arityMismatch metadata.id metadata.arity tuple.length)
  else if tuple.any fun v => !v.isPersistable then .error (.nonPersistentValue metadata.id tuple)
  else .ok ()

/-- `RelationState::validate_bindings`. -/
def RelationMetadata.validateBindings (metadata : RelationMetadata) (bindings : Bindings) :
    Except KernelError Unit :=
  if bindings.length ≠ metadata.arity then
    .error (.arityMismatch metadata.id metadata.arity bindings.length)
  else .ok ()

theorem RelationMetadata.validateTuple_eq_ok {metadata : RelationMetadata} {tuple : Tuple} :
    metadata.validateTuple tuple = .ok () ↔
      tuple.length = metadata.arity ∧ ∀ v ∈ tuple, v.isPersistable = true := by
  unfold validateTuple
  split
  · next h => exact iff_of_false (nofun) fun hok => h hok.1.symm
  rename_i h
  rw [not_not] at h
  split
  · next hany =>
    obtain ⟨v, hv, hp⟩ := List.any_eq_true.mp hany
    refine iff_of_false (nofun) fun hok => ?_
    rw [hok.2 v hv] at hp
    cases hp
  · next hany =>
    refine iff_of_true rfl ⟨h.symm, fun v hv => ?_⟩
    by_contra hp
    exact hany (List.any_eq_true.mpr ⟨v, hv, by rw [Bool.eq_false_iff.mpr hp]; rfl⟩)

theorem RelationMetadata.validateBindings_eq_ok {metadata : RelationMetadata}
    {bindings : Bindings} :
    metadata.validateBindings bindings = .ok () ↔ bindings.length = metadata.arity := by
  unfold validateBindings
  split
  · next h => exact iff_of_false (nofun) h
  · next h => exact iff_of_true rfl (not_not.mp h)

end Mica
