import Mica.Lib.BlockFacts
import Mica.Vm.Evaluate

/-!
# Vm/Program — instructions, and what is known after each of them

A program is a list of instructions over numbered registers.  An instruction of `Opcode` that
computes a value and writes it to its register is one of `Operation`.  What depends on the host
alone -- the answer to a query, the effect of a write, the method of a dispatch, the request of a
suspension -- is kept by its name and the operands that are read.

A program that is accepted carries, for each instruction, the kind and the type of the value that its
register has after it (`kindFactAfter`, `typeFactAfter`).
-/

open SortedList

namespace Mica

/-! ## Contracts of values -/

mutual

/-- `value_contract`. -/
def RawValue.contract : RawValue → TypeContract
  | .bool b => .literal (.bool b)
  | .symbol s => .literal (.symbol s)
  | .errorCode s => .literal (.errorCode s)
  | .relation heading rows =>
    if heading.isEmpty && rows.isEmpty then .literal .emptyRelation
    else if heading.isEmpty && rows.length == 1 then .literal .unit
    else .relation (if rows.isEmpty then [heading.map fun name => (name, .never)]
      else rowContracts heading rows) rows.length (some rows.length)
  | v => .kind v.kind
termination_by structural v => v

/-- The columns of each row. -/
def rowContracts (heading : List Symbol) : List (List RawValue) → List (List (Symbol × TypeContract))
  | [] => []
  | row :: rows => cellContracts heading row :: rowContracts heading rows
termination_by structural rows => rows

/-- The columns of a row, paired with the heading. -/
def cellContracts : List Symbol → List RawValue → List (Symbol × TypeContract)
  | name :: heading, cell :: row => (name, cell.contract) :: cellContracts heading row
  | _, [] => []
  | [], _ => []
termination_by structural _ row => row

end

/-- `value_contract`. -/
def valueContract (v : Value) : TypeContract := v.raw.contract

namespace TypeContract

mutual

/-- `exact_outer_kind`. -/
def exactOuterKind : TypeContract → Option ValueKind
  | dynamic => none
  | never => none
  | kind k => some k
  | literal (.bool _) => some .bool
  | literal (.symbol _) => some .symbol
  | literal (.errorCode _) => some .errorCode
  | literal .unit => some .relation
  | literal .emptyRelation => some .relation
  | union types =>
    match outerKinds types with
    | some first :: kinds => if kinds.all (· = some first) then some first else none
    | _ => none
  | relation _ _ _ => some .relation
termination_by structural t => t

/-- The kinds of the members that have values. -/
def outerKinds : List TypeContract → List (Option ValueKind)
  | [] => []
  | t :: types => match t with
    | never => outerKinds types
    | _ => exactOuterKind t :: outerKinds types
termination_by structural types => types

end

end TypeContract

namespace Vm

/-! ## Instructions -/

abbrev Register := ℕ

/-- A program that is loaded, an `Arc<Program>`. -/
structure ProgramRef where
  id : ℕ
  deriving DecidableEq

inductive Operand where
  | register (register : Register)
  | value (value : Value)

inductive ListItem where
  | value (operand : Operand)
  | splice (operand : Operand)

inductive MapItem where
  | entry (key value : Operand)
  | splice (operand : Operand)

structure CatchHandler where
  code : Option Value
  binding : Option Register
  target : ℕ

/-- A query that the host or the collection answers. -/
inductive Query where
  | index | collectionKeyAt | collectionValueAt
  | collectionFieldAt (heading : List Symbol) (column : Symbol)
  | scanValue (relation : Identity)
  | scanDynamic (relation : Identity)

/-- What an instruction writes to its register before it goes on to the next one. -/
inductive Operation where
  | load (value : Value)
  | move (src : Register)
  | unary (op : UnaryOp) (src : Register)
  | binary (op : BinaryOp) (left right : Register)
  | buildList (items : List ListItem)
  | buildRelation (heading : List Symbol) (cells : List Operand) (rowCount : ℕ)
  | buildMap (items : List MapItem)
  | buildRange (start : Operand) (stop : Option Operand)
  | setIndex (collection : Register) (index value : Operand)
  | errorField (error : Register) (field : ErrorField)
  | collectionLen (collection : Register)
  | relationPattern (relation : Register) (heading : List Symbol) (rowCount : ℕ)
      (equalities : List (Symbol × Operand))
  | relationCell (relation : Register) (column : Symbol)
  | scanExists (relation : Identity) (bindings : List (Option Operand))
  | scanBindings (relation : Identity) (bindings : List (Option Operand)) (outputs : List QueryBinding)
  | query (query : Query) (operands : List Operand)
  | builtinCall (name : Symbol) (resultKind : Option ValueKind) (args : List ListItem)

/-- What is done without a result. -/
inductive Effect where
  | assert (relation : Identity) | retract (relation : Identity) | retractWhere (relation : Identity)
  | assertDynamic (relation : Identity) | retractDynamic (relation : Identity)
  | replaceFunctional (relation : Identity)
  | emit

inductive Dispatch where
  | dispatch | dynamicDispatch | positionalDispatch | positionalDispatchDynamic

/-- Whom a call goes to. -/
inductive Callee where
  | program (program : ProgramRef) (args : List Operand)
  | value (callee : Operand) (args : List ListItem)
  | method (kind : Dispatch) (operands : List Operand)

/-- What a task is suspended for until it is resumed with a value. -/
inductive Await where
  | spawnDispatch | spawnDispatchDynamic | spawnPositionalDispatch | spawnPositionalDispatchDynamic
  | suspendValue | commitValue | read | mailboxRecv | externalRequest

inductive KindCheckSite where
  | binding | parameter | builtin

inductive Opcode where
  | compute (dst : Register) (operation : Operation)
  | checkKind (value : Register) (expected : ValueKind) (site : KindCheckSite) (subject : Symbol)
  | checkType (value : Register) (expected : TypeContract) (site : KindCheckSite) (subject : Symbol)
  | perform (effect : Effect) (operands : List Operand)
  | branch (condition : Register) (ifTrue ifFalse : ℕ)
  | jump (target : ℕ)
  | enterTry (catches : List CatchHandler) (finally_ : Option ℕ) (end_ : ℕ)
  | exitTry
  | endFinally
  | loadFunction (dst : Register) (program : ProgramRef) (captures : List Operand) (minArity : ℕ)
      (maxArity : Option ℕ) (bindSelf : Bool)
  | call (dst : Register) (callee : Callee)
  | await (dst : Register) (request : Await) (operands : List Operand)
  | commit
  | suspend
  | rollbackRetry
  | return (value : Operand)
  | abort (error : Operand)
  | raise (error : Operand) (message value : Option Operand)

namespace Opcode

def destination : Opcode → Option Register
  | compute dst _ => some dst
  | loadFunction dst _ _ _ _ _ => some dst
  | call dst _ => some dst
  | await dst _ _ => some dst
  | _ => none

def kindFactRegister : Opcode → Option Register
  | checkKind value _ _ _ => some value
  | checkType value _ _ _ => some value
  | op => op.destination

/-- The instructions that `mark_target` marks. -/
def targets : Opcode → List ℕ
  | branch _ ifTrue ifFalse => [ifTrue, ifFalse]
  | jump target => [target]
  | enterTry catches finally_ end_ => catches.map CatchHandler.target ++ finally_.toList ++ [end_]
  | _ => []

/-- After these nothing is known. -/
def leaves : Opcode → Bool
  | branch _ _ _ => true
  | jump _ => true
  | exitTry => true
  | endFinally => true
  | .return _ => true
  | abort _ => true
  | raise _ _ _ => true
  | _ => false

end Opcode

/-! ## Kinds -/

/-- `infer_numeric_result_kind`. -/
def inferNumericResultKind (op : BinaryOp) (left right : Option ValueKind) : Option ValueKind :=
  match left, right with
  | some left, some right =>
    if left = right ∧ (left = .int ∨ left = .float) then
      match op with
      | .add | .sub | .mul => some left
      | .div => if left = .int then none else some .float
      | .rem => some left
      | _ => some .bool
    else none
  | _, _ => none

def inferOperationKind (registers : Register → Option ValueKind) : Operation → Option ValueKind
  | .load value => some value.kind
  | .move src => registers src
  | .unary .not _ => some .bool
  | .unary .neg src => (registers src).filter fun kind => kind = .int ∨ kind = .float
  | .binary op left right =>
    match op with
    | .eq | .ne | .lt | .le | .gt | .ge => some .bool
    | _ => inferNumericResultKind op (registers left) (registers right)
  | .scanExists _ _ => some .bool
  | .buildList _ => some .list
  | .buildRelation _ _ _ => some .relation
  | .scanBindings _ _ _ => some .relation
  | .buildMap _ => some .map
  | .buildRange _ _ => some .range
  | .setIndex collection _ _ => (registers collection).filter fun kind => kind = .list ∨ kind = .map
  | .errorField error .code =>
    if registers error = some .error ∨ registers error = some .errorCode then some .errorCode else none
  | .collectionLen _ => some .int
  | .builtinCall _ resultKind _ => resultKind
  | _ => none

/-- `infer_opcode_kind`. -/
def inferOpcodeKind (registers : Register → Option ValueKind) : Opcode → Option ValueKind
  | .compute _ operation => inferOperationKind registers operation
  | .checkKind _ expected _ _ => some expected
  | .checkType _ expected _ _ => expected.exactOuterKind
  | .loadFunction _ _ _ _ _ _ => some .function
  | _ => none

def kindAnalysis : BlockAnalysis Opcode Register ValueKind where
  targets := Opcode.targets
  leaves := Opcode.leaves
  subject := Opcode.kindFactRegister
  infer _ op registers := inferOpcodeKind registers op

/-- `infer_kind_facts`. -/
def inferKindFacts (opcodes : List Opcode) : List (Option ValueKind) := kindAnalysis.facts opcodes

/-! ## Types -/

/-- What is known about an operand. -/
def operandType (registers : Register → Option TypeContract) : Operand → Option TypeContract
  | .register r => registers r
  | .value v => some (valueContract v)

/-- The values of operands that are constants. -/
def constants (operands : List Operand) : Option (List Value) :=
  operands.mapM fun
    | .register _ => none
    | .value v => some v

/-- The columns of one row of a literal, in the order of their symbols. -/
def literalRow (registers : Register → Option TypeContract) (heading : List Symbol)
    (cells : List Operand) (row : ℕ) : Option (List (Symbol × TypeContract)) :=
  (RelationValue.columnOrder heading).mapM fun column => do
    let cell ← cells[row * heading.length + column.2]?
    some (column.1, ← operandType registers cell)

def literalAlternatives (registers : Register → Option TypeContract) (heading : List Symbol)
    (cells : List Operand) (rowCount : ℕ) : Option (List (List (Symbol × TypeContract))) :=
  if rowCount = 0 then
    some [(RelationValue.columnOrder heading).map fun column => (column.1, .never)]
  else (List.range rowCount).mapM (literalRow registers heading cells)

/-- The least and the greatest number of rows.  Construction removes equal rows: only constants show
that rows are different. -/
def literalBounds (heading : List Symbol) (cells : List Operand) (rowCount : ℕ) : ℕ × ℕ :=
  if heading.length = 0 ∨ rowCount = 0 then (min rowCount 1, min rowCount 1)
  else match constants cells with
    | some values =>
      let rows := (sortDedup (chunksExact heading.length values)).length
      (rows, rows)
    | none => (1, rowCount)

/-- The type of a relation literal. -/
def literalType (registers : Register → Option TypeContract) (heading : List Symbol)
    (cells : List Operand) (rowCount : ℕ) : Option TypeContract :=
  (literalAlternatives registers heading cells rowCount).map fun alternatives =>
    .relation alternatives (literalBounds heading cells rowCount).1
      (some (literalBounds heading cells rowCount).2)

/-- The type of a scan: a column of each query variable. -/
def scanType (outputs : List QueryBinding) : TypeContract :=
  .relation [(outputs.map fun output => (output.name, TypeContract.dynamic)).insertionSort
    fun e f => e.1 ≤ f.1] 0 none

/-- `infer_opcode_type`; the alternatives of a literal are neither sorted nor freed of repetition. -/
def inferOpcodeType (registers : Register → Option TypeContract) : Opcode → Option TypeContract
  | .compute _ (.load value) => some (valueContract value)
  | .compute _ (.move src) => registers src
  | .checkKind _ expected _ _ => some (.kind expected)
  | .checkType _ expected _ _ => some expected
  | .compute _ (.buildRelation heading cells rowCount) => literalType registers heading cells rowCount
  | .compute _ (.scanBindings _ _ outputs) => some (scanType outputs)
  | _ => none

/-- What has no type of its own has its kind. -/
def typeAnalysis (kindFacts : List (Option ValueKind)) :
    BlockAnalysis Opcode Register TypeContract where
  targets := Opcode.targets
  leaves := Opcode.leaves
  subject := Opcode.kindFactRegister
  infer i op registers :=
    inferOpcodeType registers op <|> (kindFacts[i]?.join.map TypeContract.kind)

/-- `infer_type_facts`. -/
def inferTypeFacts (opcodes : List Opcode) : List (Option TypeContract) :=
  (typeAnalysis (inferKindFacts opcodes)).facts opcodes

/-! ## Programs -/

def Operand.registers : Operand → List Register
  | .register r => [r]
  | .value _ => []

def ListItem.registers : ListItem → List Register
  | .value operand => operand.registers
  | .splice operand => operand.registers

def MapItem.registers : MapItem → List Register
  | .entry key value => key.registers ++ value.registers
  | .splice operand => operand.registers

def Operation.registers : Operation → List Register
  | .load _ => []
  | .move src => [src]
  | .unary _ src => [src]
  | .binary _ left right => [left, right]
  | .buildList items => items.flatMap ListItem.registers
  | .buildRelation _ cells _ => cells.flatMap Operand.registers
  | .buildMap items => items.flatMap MapItem.registers
  | .buildRange start stop => start.registers ++ stop.toList.flatMap Operand.registers
  | .setIndex collection index value => collection :: (index.registers ++ value.registers)
  | .errorField error _ => [error]
  | .collectionLen collection => [collection]
  | .relationPattern relation _ _ _ => [relation]
  | .relationCell relation _ => [relation]
  | .scanExists _ bindings => bindings.reduceOption.flatMap Operand.registers
  | .scanBindings _ bindings _ => bindings.reduceOption.flatMap Operand.registers
  | .query _ operands => operands.flatMap Operand.registers
  | .builtinCall _ _ args => args.flatMap ListItem.registers

/-- The registers that `validate_instruction` looks at. -/
def Opcode.registers : Opcode → List Register
  | compute dst operation => dst :: operation.registers
  | checkKind value _ _ _ => [value]
  | checkType value _ _ _ => [value]
  | perform _ operands => operands.flatMap Operand.registers
  | branch condition _ _ => [condition]
  | enterTry catches _ _ => catches.filterMap CatchHandler.binding
  | loadFunction dst _ captures _ _ _ => dst :: captures.flatMap Operand.registers
  | call dst (.program _ args) => dst :: args.flatMap Operand.registers
  | call dst (.value callee args) => dst :: (callee.registers ++ args.flatMap ListItem.registers)
  | call dst (.method _ operands) => dst :: operands.flatMap Operand.registers
  | await dst _ operands => dst :: operands.flatMap Operand.registers
  | .return value => value.registers
  | abort error => error.registers
  | raise error message value =>
    error.registers ++ message.toList.flatMap Operand.registers ++
      value.toList.flatMap Operand.registers
  | _ => []

/-- What else an instruction has to meet, among programs with these numbers of registers. -/
def Opcode.wellFormed (registerCount : ProgramRef → ℕ) : Opcode → Bool
  | compute _ (.buildRelation heading cells rowCount) =>
    cells.length = heading.length * rowCount && heading.Nodup
  | loadFunction _ program captures minArity maxArity bindSelf =>
    maxArity.all (minArity ≤ ·) && captures.length + bindSelf.toNat < registerCount program
  | call _ (.program program args) => args.length ≤ registerCount program
  | _ => true

structure Program where
  registerCount : ℕ
  opcodes : List Opcode

namespace Program

/-- `Program::new` accepts the instructions; the names that subjects and columns need are taken for
granted. -/
def isAccepted (registerCount : ProgramRef → ℕ) (p : Program) : Bool :=
  p.opcodes.length ≤ 65536 && p.opcodes.all fun op =>
    op.registers.all (· < p.registerCount) && op.targets.all (· < p.opcodes.length) &&
      op.wellFormed registerCount

/-- `kind_fact_after`. -/
def kindFactAfter (p : Program) (instruction : ℕ) : Option (Register × ValueKind) := do
  let kind ← ((inferKindFacts p.opcodes)[instruction]?).join
  let op ← p.opcodes[instruction]?
  some (← op.kindFactRegister, kind)

/-- `type_fact_after`. -/
def typeFactAfter (p : Program) (instruction : ℕ) : Option (Register × TypeContract) := do
  let type ← ((inferTypeFacts p.opcodes)[instruction]?).join
  let op ← p.opcodes[instruction]?
  some (← op.kindFactRegister, type)

end Program

end Vm

end Mica
