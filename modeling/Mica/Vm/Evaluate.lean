import Mica.Var.LanguageCmp
import Mica.Vm.TypeContract

/-!
# Vm/Evaluate — the operators of the machine

The operators are partial functions on values: where one has no result, it gives the error that is
raised. Interning and the arithmetic of binary32 numbers are the machine's own (`Primitives`).
-/

namespace Mica

/-- `Value::int`, on what fits. -/
def Integer.ofInt (n : ℤ) : Option Integer :=
  if h : intMin ≤ n ∧ n ≤ intMax then some ⟨n, h.1, h.2⟩ else none

/-! ## Parts of values -/

namespace Value

def asInteger (v : Value) : Option Integer :=
  match v.raw with
  | .int i => some i
  | _ => none

def asFloat (v : Value) : Option FiniteF32 :=
  match v.raw with
  | .float f => some f
  | _ => none

def asFunction (v : Value) : Option FunctionId :=
  match v.raw with
  | .function f => some f
  | _ => none

def asString (v : Value) : Option String :=
  match v.raw with
  | .string s => some s
  | _ => none

/-- `Value::with_list`. -/
def asList (v : Value) : Option (List Value) :=
  match h : v.raw with
  | .list vs =>
    have hvs : valuesCanonical vs = true := (congrArg RawValue.isCanonical h).symm.trans v.canonical
    some (vs.pmap Value.mk (valuesCanonical_iff.mp hvs))
  | _ => none

/-- `Value::with_map`. -/
def asMap (v : Value) : Option (List (Value × Value)) :=
  match h : v.raw with
  | .map es =>
    have hes : (entriesCanonical es && decide (es.Pairwise fun e f => e.1.cmp f.1 = .lt)) = true :=
      (congrArg RawValue.isCanonical h).symm.trans v.canonical
    some (es.pmap (fun e he => (⟨e.1, he.1⟩, ⟨e.2, he.2⟩))
      (entriesCanonical_iff.mp (Bool.and_eq_true_iff.mp hes).1))
  | _ => none

/-- `Value::with_range`, on the ends that are integers. -/
def asIntegerRange (v : Value) : Option (ℤ × ℤ) :=
  match v.raw with
  | .range (.int start) (some (.int stop)) => some (start.val, stop.val)
  | _ => none

/-- `Value::with_error`: the code, the message and the value. -/
def asError (v : Value) : Option (Symbol × Option String × Option Value) :=
  match h : v.raw with
  | .error code message none => some (code, message, none)
  | .error code message (some value) =>
    have hvalue : value.isCanonical = true := (congrArg RawValue.isCanonical h).symm.trans v.canonical
    some (code, message, some ⟨value, hvalue⟩)
  | _ => none

/-- `error_code_symbol`. -/
def errorCodeSymbol (v : Value) : Option Symbol :=
  v.asErrorCode <|> v.asError.map Prod.fst

end Value

/-! ## Operators -/

namespace Vm

inductive UnaryOp where
  | not | neg
  deriving DecidableEq

inductive BinaryOp where
  | eq | ne | lt | le | gt | ge | add | sub | mul | div | rem
  deriving DecidableEq

inductive ErrorField where
  | code | message | value
  deriving DecidableEq

/-- What the machine is built on: `Symbol::intern`, and the operations of binary32 numbers as far as
their results are finite. -/
structure Primitives where
  intern : String → Symbol
  floatNeg : FiniteF32 → Option FiniteF32
  floatArithmetic : BinaryOp → FiniteF32 → FiniteF32 → Option FiniteF32

def truthy (v : Value) : Bool :=
  match v.raw with
  | .bool b => b
  | .list vs => !vs.isEmpty
  | .relation _ rows => !rows.isEmpty
  | _ => true

section
variable (P : Primitives)

def arithmeticError (code message : String) (values : List Value) : Value :=
  .error (P.intern code) (some message) (some (.list values))

/-- `Value::checked_neg`. -/
def checkedNeg (v : Value) : Option Value :=
  match v.asInteger with
  | some i => (Integer.ofInt (-i.val)).map .int
  | none => (v.asFloat.bind P.floatNeg).map .float

def evalUnary (op : UnaryOp) (v : Value) : Except Value Value :=
  match op with
  | .not => .ok (.bool !truthy v)
  | .neg => (checkedNeg P v).elim
      (.error (arithmeticError P "E_ARITH" "invalid unary arithmetic" [v])) .ok

/-- The operations of integers; a division has no remainder. -/
def integerArithmetic : BinaryOp → ℤ → ℤ → Option ℤ
  | .add, a, b => some (a + b)
  | .sub, a, b => some (a - b)
  | .mul, a, b => some (a * b)
  | .div, a, b => if b = 0 ∨ a.tmod b ≠ 0 then none else some (a.tdiv b)
  | .rem, a, b => if b = 0 then none else some (a.tmod b)
  | _, _, _ => none

/-- `checked_add` and its like: two integers or two floats. -/
def checkedArithmetic (op : BinaryOp) (left right : Value) : Option Value :=
  match left.asInteger, right.asInteger with
  | some a, some b => ((integerArithmetic op a.val b.val).bind Integer.ofInt).map .int
  | none, none =>
    match left.asFloat, right.asFloat with
    | some a, some b => (P.floatArithmetic op a b).map .float
    | _, _ => none
  | _, _ => none

def isNumber (v : Value) : Bool := v.asInteger.isSome || v.asFloat.isSome

/-- `eval_arithmetic`. -/
def evalArithmetic (op : BinaryOp) (message : String) (left right : Value) : Except Value Value :=
  match checkedArithmetic P op left right with
  | some v => .ok v
  | none =>
    if isNumber left && isNumber right && left.asInteger.isSome != right.asInteger.isSome then
      .error (arithmeticError P "E_TYPE" message [left, right])
    else .error (arithmeticError P "E_ARITH" message [left, right])

def isZero (v : Value) : Bool :=
  v.asInteger.any (fun i => i.val == 0) || v.asFloat.any (fun f => f.bits == 0)

def evalBinary (op : BinaryOp) (left right : Value) : Except Value Value :=
  match op with
  | .eq => .ok (.bool (numericEq left right))
  | .ne => .ok (.bool !numericEq left right)
  | .lt => .ok (.bool (numericCmp left right == .lt))
  | .le => .ok (.bool ((numericCmp left right).isLE))
  | .gt => .ok (.bool (numericCmp left right == .gt))
  | .ge => .ok (.bool ((numericCmp left right).isGE))
  | .add => evalArithmetic P .add "invalid addition" left right
  | .sub => evalArithmetic P .sub "invalid subtraction" left right
  | .mul => evalArithmetic P .mul "invalid multiplication" left right
  | .div =>
    if isZero right then .error (arithmeticError P "E_DIV" "division by zero" [left, right])
    else evalArithmetic P .div "invalid division" left right
  | .rem =>
    if isZero right then .error (arithmeticError P "E_DIV" "remainder by zero" [left, right])
    else evalArithmetic P .rem "invalid remainder" left right

/-! ## Collections -/

/-- `Value::index_set`. -/
def indexSet (collection index value : Value) : Option Value :=
  match collection.asList with
  | some vs => do
    let i ← index.asInteger
    if 0 ≤ i.val ∧ i.val.toNat < vs.length then some (.list (vs.set i.val.toNat value)) else none
  | none => collection.asMap.map fun es => .map (es ++ [(index, value)])

/-- `set_index_value`. -/
def setIndexValue (collection index value : Value) : Except Value Value :=
  (indexSet collection index value).elim
    (.error (.error (P.intern "E_INDEX") (some "collection index is missing or invalid")
      (some (.list [collection, index])))) .ok

/-- The relation with the one column `value` that stands for an option. -/
def optionValue : Option Value → Value
  | none => .ofRelation ⟨[P.intern "value"], [], by simp [maxHeading], List.pairwise_singleton _ _,
      nofun, RelationValue.rows_sorted_nil⟩
  | some v => .ofRelation ⟨[P.intern "value"], [[v]], by simp [maxHeading],
                                                           List.pairwise_singleton _ _,
      fun _ h => by rw [List.mem_singleton.mp h]; rfl, List.pairwise_singleton _ _⟩

def errorFieldValue (error : Value) (field : ErrorField) : Except Value Value :=
  match error.asErrorCode with
  | some code => .ok (match field with
    | .code => .errorCode code
    | .message | .value => optionValue P none)
  | none =>
    match error.asError with
    | some (code, message, value) => .ok (match field with
      | .code => .errorCode code
      | .message => optionValue P (message.map .string)
      | .value => optionValue P value)
    | none => .error (.error (P.intern "E_TYPE")
        (some "error field access requires an error or error code") (some error))

/-- `collection_len`. -/
def collectionLen (collection : Value) : Value :=
  let rangeLen : ℤ × ℤ → ℕ := fun (start, stop) => (stop - start + 1).toNat
  let len := (collection.asList.map List.length <|> collection.asMap.map List.length <|>
    collection.asString.map String.length <|> collection.asRelation.map (fun r => r.rows.length) <|>
    collection.asIntegerRange.map rangeLen).getD 0
  .int ((Integer.ofInt len).getD ⟨0, intMin_le_zero, zero_le_intMax⟩)

end

/-! ## Relations -/

/-- What a run of the machine fails with; a raised error can still be caught. -/
inductive RuntimeError where
  | raised (error : Value)
  | programCounterOutOfBounds (ip : ℕ)
  | maxCallDepthExceeded (maxDepth : ℕ)
  | invalidCallArity (expectedMin : ℕ) (expectedMax : Option ℕ) (actual : ℕ)
  | invalidCallable (value : Value)
  | invalidFunction (id : ℕ)
  | invalidArgumentSplice (value : Value)
  | invalidRaisedValue (value : Value)
  | invalidErrorMessage (value : Value)
  | builtinResultKindMismatch (name : Symbol) (expected actual : ValueKind)
  | emptyCallStack
  | emptyTryStack
  | programArtifact (message : String)
  /-- An error of the host that no handler sees. -/
  | host (message : String)

structure QueryBinding where
  name : Symbol
  position : ℕ
  deriving DecidableEq

/-- The columns of a query, each with its first position, and the positions that have to agree. -/
def queryColumns : List (Symbol × ℕ) → List QueryBinding → List (Symbol × ℕ) × List (ℕ × ℕ)
  | columns, [] => (columns, [])
  | columns, output :: outputs =>
    match columns.find? fun column => column.1 = output.name with
    | some column =>
      let (columns', equalities) := queryColumns columns outputs
      (columns', (column.2, output.position) :: equalities)
    | none => queryColumns (columns ++ [(output.name, output.position)]) outputs

/-- `query_relation`. -/
def queryRelation (rows : List Tuple) (outputs : List QueryBinding) (sourceArity : ℕ) :
    Except RuntimeError Value :=
  if outputs.any fun output => sourceArity ≤ output.position then
    .error (.programArtifact "query binding position is out of bounds")
  else
    let (columns, equalities) := queryColumns [] outputs
    let result := (rows.filter fun row => equalities.all fun e => row[e.1]? == row[e.2]?).map
      fun row => row.select (columns.map Prod.snd)
    (Value.relation (columns.map Prod.fst) result).mapError fun _ =>
      .programArtifact "invalid query relation"

/-- `cells.chunks_exact(arity)`. -/
def chunksExact {α : Type} (arity : ℕ) (cells : List α) : List (List α) :=
  (List.range (cells.length / arity)).map fun row => (cells.drop (row * arity)).take arity

/-- The relation of a literal. -/
def relationLiteral (heading : List Symbol) (cells : List Value) (rowCount : ℕ) :
    Except RuntimeError Value :=
  let rows : List Tuple :=
    if heading.length = 0 then List.replicate rowCount [] else chunksExact heading.length cells
  (Value.relation heading rows).mapError fun _ => .programArtifact "invalid relation literal"

/-- Whether a relation matches a pattern: its heading, the number of its rows and some of its cells. -/
def relationMatches (relation : Value) (heading : List Symbol) (rowCount : ℕ)
    (equalities : List (Symbol × Value)) : Bool :=
  relation.asRelation.any fun r =>
    r.rows.length == rowCount && r.heading == heading && equalities.all fun (column, expected) =>
      (r.heading.idxOf? column).any fun position =>
        r.rows.head?.any fun row => row[position]? == some expected

/-- The cell of the first row. -/
def relationCell (relation : Value) (column : Symbol) : Option Value :=
  relation.asRelation.bind fun r =>
    (r.heading.idxOf? column).bind fun position => r.rows.head?.bind fun row => row[position]?

end Vm

end Mica
