import Mica.Vm.Program

/-!
# Vm/Machine — frames, calls, raises and suspensions

The machine interprets one instruction of the current frame at a time.  What it asks of the world is
answered by a `Host`, which may be another one at each step.  A step also says which instruction of the
current frame it has completed: the one that has gone on to the next, the call that a return has
come back to, or the suspension that has been resumed.  A branch, a jump and a raise complete
nothing.  The native code that the `cranelift` feature makes of loops is left out.
-/

namespace Mica.Vm

/-! ## States -/

inductive FinallyContinuation where
  | normal (target : ℕ)
  | jump (target : ℕ)
  | raise (error : Value)
  | return (value : Value)

structure TryRegion where
  start : ℕ
  catches : List CatchHandler
  finally_ : Option ℕ
  end_ : ℕ

structure PendingFinally where
  start : ℕ
  end_ : ℕ
  continuation : FinallyContinuation

/-- An activation of a program; the top of either stack is the head of its list. -/
structure Frame where
  program : ProgramRef
  ip : ℕ
  registers : Register → Value
  returnRegister : Option Register
  tryStack : List TryRegion
  pendingFinally : List PendingFinally

structure CallableInfo where
  program : ProgramRef
  captures : List Value
  minArity : ℕ
  maxArity : Option ℕ
  bindSelf : Bool
  deriving DecidableEq

/-- The state of the machine, the current frame first. -/
structure State where
  functions : List CallableInfo
  frames : List Frame
  pendingResume : Option Register

inductive Response where
  | continue | commit | suspend | rollbackRetry
  | complete (value : Value)
  | abort (error : Value)

/-- What a step leaves, and the instruction of the current frame that it has completed. -/
structure Progress where
  response : Response
  state : State
  completed : Option ℕ

/-- The answers of the world to one step. -/
structure Host where
  scanRelation : Identity → List (Option Value) → Except RuntimeError (List Tuple)
  query : Query → List Value → Except RuntimeError Value
  callBuiltin : Symbol → List Value → Except RuntimeError Value
  perform : Effect → List Value → Except RuntimeError Unit
  method : Dispatch → List Value → Except RuntimeError (ProgramRef × List Value)
  request : Await → List Value → Except RuntimeError Unit

/-- The programs that are loaded, each of them accepted, and the text of the error of a check. -/
structure Machine extends Primitives where
  program : ProgramRef → Program
  accepted : ∀ p, (program p).isAccepted (fun q => (program q).registerCount) = true
  checkMessage : KindCheckSite → Symbol → TypeContract → ValueKind → String
  maxCallDepth : ℕ

/-! ## Frames -/

namespace Frame

/-- `Frame::new`. -/
def new (program : ProgramRef) (registerCount : ℕ) (returnRegister : Option Register)
    (args : List Value) : Except RuntimeError Frame :=
  if args.length ≤ registerCount then
    .ok ⟨program, 0, fun r => args[r]?.getD emptyRelation, returnRegister, [], []⟩
  else .error (.invalidCallArity 0 (some registerCount) args.length)

def write (f : Frame) (r : Register) (v : Value) : Frame :=
  { f with registers := Function.update f.registers r v }

def advance (f : Frame) : Frame := { f with ip := f.ip + 1 }

def enterFinally (f : Frame) (start end_ : ℕ) (continuation : FinallyContinuation) : Frame :=
  { f with
    pendingFinally := ⟨start, end_, continuation⟩ :: f.pendingFinally
    ip := start }

def discardExitedFinally (f : Frame) (target : ℕ) : Frame :=
  { f with
    pendingFinally := f.pendingFinally.dropWhile fun region =>
      target < region.start || region.end_ ≤ target }

/-- `matching_handler`. -/
def matchingHandler (catches : List CatchHandler) (error : Value) : Option CatchHandler :=
  catches.find? fun handler => match handler.code with
    | some code => code.errorCodeSymbol.isSome && code.errorCodeSymbol == error.errorCodeSymbol
    | none => true

/-- `begin_raise` within a frame: the first region that handles the error or has a finally block. -/
def raiseThrough (f : Frame) (error : Value) : List TryRegion → Option Frame
  | [] => none
  | region :: regions =>
    match matchingHandler region.catches error with
    | some handler =>
      let f := { f.discardExitedFinally handler.target with
        tryStack := match region.finally_ with
          | some finally_ => ⟨region.start, [], some finally_, region.end_⟩ :: regions
          | none => regions
        ip := handler.target }
      some (match handler.binding with
        | some binding => f.write binding error
        | none => f)
    | none =>
      match region.finally_ with
      | some finally_ =>
        some (({ f with tryStack := regions }.discardExitedFinally finally_).enterFinally
          finally_ region.end_ (.raise error))
      | none => raiseThrough f error regions

/-- `return_from_frame` within a frame: the first region that has a finally block. -/
def returnThrough (f : Frame) (value : Value) : List TryRegion → Option Frame
  | [] => none
  | region :: regions =>
    match region.finally_ with
    | some finally_ => some ({ f with tryStack := regions, pendingFinally := [] }.enterFinally
        finally_ region.end_ (.return value))
    | none => returnThrough f value regions

/-- The loop of `jump_to`. -/
def jumpThrough (f : Frame) (target : ℕ) : List TryRegion → Frame
  | [] => { f with tryStack := [], ip := target }
  | region :: regions =>
    if target < region.start ∨ region.end_ ≤ target then
      match region.finally_ with
      | some finally_ => { f with tryStack := regions }.enterFinally finally_ region.end_
        (.jump target)
      | none => jumpThrough f target regions
    else { f with tryStack := region :: regions, ip := target }

/-- `jump_to`. -/
def jumpTo (f : Frame) (target : ℕ) : Frame :=
  (f.discardExitedFinally target).jumpThrough target f.tryStack

/-- `exit_try_region`. -/
def exitTryRegion (f : Frame) : Except RuntimeError Frame :=
  match f.tryStack with
  | [] => .error .emptyTryStack
  | region :: regions =>
    match region.finally_ with
    | some finally_ => .ok ({ f with tryStack := regions }.enterFinally finally_ region.end_
        (.normal region.end_))
    | none => .ok { f with tryStack := regions, ip := region.end_ }

/-! ## Operands -/

def resolve (f : Frame) : Operand → Value
  | .register r => f.registers r
  | .value v => v

/-- `build_list` and `resolve_list_items`: the values, or what cannot be spliced. -/
def resolveListItems (f : Frame) : List ListItem → Except Value (List Value)
  | [] => .ok []
  | .value operand :: items => (resolveListItems f items).map (f.resolve operand :: ·)
  | .splice operand :: items =>
    match (f.resolve operand).asList with
    | some values => (resolveListItems f items).map (values ++ ·)
    | none => .error (f.resolve operand)

/-- `resolve_map_items`. -/
def resolveMapItems (f : Frame) : List MapItem → Except RuntimeError (List (Value × Value))
  | [] => .ok []
  | .entry key value :: items => (resolveMapItems f items).map ((f.resolve key, f.resolve value) :: ·)
  | .splice operand :: items =>
    match (f.resolve operand).asMap with
    | some entries => (resolveMapItems f items).map (entries ++ ·)
    | none => .error (.invalidArgumentSplice (f.resolve operand))

end Frame

/-! ## Instructions that compute -/

section
variable (M : Machine) (host : Host)

/-- `validate_builtin_result`. -/
def validateBuiltinResult (name : Symbol) (expected : Option ValueKind) (v : Value) :
    Except RuntimeError Value :=
  match expected with
  | none => .ok v
  | some expected =>
    if v.kind = expected then .ok v else .error (.builtinResultKindMismatch name expected v.kind)

/-- The value that an instruction writes. -/
def operate (f : Frame) : Operation → Except RuntimeError Value
  | .load value => .ok value
  | .move src => .ok (f.registers src)
  | .unary op src => (evalUnary M.toPrimitives op (f.registers src)).mapError .raised
  | .binary op left right =>
    (evalBinary M.toPrimitives op (f.registers left) (f.registers right)).mapError .raised
  | .buildList items =>
    match f.resolveListItems items with
    | .ok values => .ok (.list values)
    | .error splice => .error (.raised (.error (M.intern "E_TYPE") (some "list splice requires a list")
        (some splice)))
  | .buildRelation heading cells rowCount => relationLiteral heading (cells.map f.resolve) rowCount
  | .buildMap items => (f.resolveMapItems items).map .map
  | .buildRange start stop => .ok (.range (f.resolve start) (stop.map f.resolve))
  | .setIndex collection index value =>
    (setIndexValue M.toPrimitives (f.registers collection) (f.resolve index)
    (f.resolve value)).mapError
      .raised
  | .errorField error field => (errorFieldValue M.toPrimitives (f.registers error) field).mapError
    .raised
  | .collectionLen collection => .ok (collectionLen (f.registers collection))
  | .relationPattern relation heading rowCount equalities =>
    .ok (.bool (relationMatches (f.registers relation) heading rowCount
      (equalities.map fun e => (e.1, f.resolve e.2))))
  | .relationCell relation column =>
    (relationCell (f.registers relation) column).elim
      (.error (.raised (.error (M.intern "E_MATCH") (some "relation cell load requires a matched row")
        (some (f.registers relation))))) .ok
  | .scanExists relation bindings => do
    let rows ← host.scanRelation relation (bindings.map (Option.map f.resolve))
    .ok (.bool !rows.isEmpty)
  | .scanBindings relation bindings outputs => do
    let rows ← host.scanRelation relation (bindings.map (Option.map f.resolve))
    queryRelation rows outputs bindings.length
  | .query query operands => host.query query (operands.map f.resolve)
  | .builtinCall name resultKind args => do
    let args ← (f.resolveListItems args).mapError .invalidArgumentSplice
    let value ← host.callBuiltin name args
    validateBuiltinResult name resultKind value

/-- `normalize_raised_error`. -/
def normalizeRaisedError (error : Value) (message value : Option Value) :
    Except RuntimeError Value := do
  let message ← match message with
    | none => .ok none
    | some message =>
      if message = emptyRelation then .ok none
      else match message.asString with
        | some text => .ok (some text)
        | none => .error (.invalidErrorMessage message)
  match error.asErrorCode with
  | some code => .ok (.error code message value)
  | none =>
    match error.asError with
    | some (code, message', value') => .ok (.error code (message <|> message') (value <|> value'))
    | none => .error (.invalidRaisedValue error)

/-- `kind_check_error` and `type_check_error`. -/
def checkError (site : KindCheckSite) (subject : Symbol) (expected : TypeContract)
    (v : Value) : Value :=
  .error (M.intern "E_TYPE") (some (M.checkMessage site subject expected v.kind)) (some v)

/-! ## Moves of the whole machine -/

namespace State

/-- The current frame has completed its instruction. -/
def advance (s : State) (f : Frame) (rest : List Frame) : Progress :=
  ⟨.continue, { s with frames := f.advance :: rest }, some f.ip⟩

/-- Control has moved within the current frame. -/
def goOn (s : State) (f : Frame) (rest : List Frame) : Progress :=
  ⟨.continue, { s with frames := f :: rest }, none⟩

/-- The frames that an error leaves. -/
def raiseFrames (error : Value) : List Frame → List Frame
  | [] => []
  | f :: rest =>
    match f.raiseThrough error f.tryStack with
    | some f => f :: rest
    | none => raiseFrames error rest

/-- `begin_raise`. -/
def beginRaise (s : State) (error : Value) : Progress :=
  match raiseFrames error s.frames with
  | [] => ⟨.abort error, { s with frames := [] }, none⟩
  | f :: rest => s.goOn f rest

/-- `return_from_frame`. -/
def returnFromFrame (s : State) (f : Frame) (rest : List Frame) (value : Value) :
    Except RuntimeError Progress :=
  match f.returnThrough value f.tryStack with
  | some f => .ok (s.goOn f rest)
  | none =>
    match f.returnRegister with
    | none => .ok ⟨.complete value, { s with frames := rest }, none⟩
    | some r =>
      match rest with
      | caller :: rest =>
        .ok ⟨.continue, { s with frames := caller.write r value :: rest }, some (caller.ip - 1)⟩
      | [] => .error .emptyCallStack

/-- `end_finally`. -/
def endFinally (s : State) (f : Frame) (rest : List Frame) : Except RuntimeError Progress :=
  match f.pendingFinally with
  | [] => .error .emptyTryStack
  | pending :: others =>
    let f := { f with pendingFinally := others }
    match pending.continuation with
    | .normal target => .ok (s.goOn { f with ip := target } rest)
    | .jump target => .ok (s.goOn (f.jumpTo target) rest)
    | .raise error => .ok ({ s with frames := f :: rest }.beginRaise error)
    | .return value => s.returnFromFrame f rest value

/-- `resume_with`. -/
def resumeWith (s : State) (value : Value) : Except RuntimeError Progress :=
  match s.pendingResume with
  | none => .ok ⟨.continue, s, none⟩
  | some r =>
    match s.frames with
    | f :: rest =>
      .ok ⟨.continue, { s with frames := f.write r value :: rest, pendingResume := none },
        some (f.ip - 1)⟩
    | [] => .error .emptyCallStack

end State

/-- `FunctionId::new`. -/
def functionIdOfRaw (raw : ℕ) : Option FunctionId :=
  if h : (UInt64.ofNat raw).toNat ≤ maxPayload ∧ raw < 2 ^ 64 then some ⟨_, h.1⟩ else none

/-- `intern_function`: the functions, and the number of this one among them. -/
def internFunction (functions : List CallableInfo) (function : CallableInfo) :
    Except RuntimeError (List CallableInfo × FunctionId) :=
  match functions.idxOf? function with
  | some index => (functionIdOfRaw index).elim
      (.error (.programArtifact "function id exceeds value payload range")) fun id =>
        .ok (functions, id)
  | none => (functionIdOfRaw functions.length).elim
      (.error (.programArtifact "function id exceeds value payload range")) fun id =>
        .ok (functions ++ [function], id)

def checkDepth (s : State) : Except RuntimeError Unit :=
  if M.maxCallDepth ≤ s.frames.length then .error (.maxCallDepthExceeded M.maxCallDepth) else .ok ()

/-- Whom a call is for, and its arguments. -/
def resolveCallee (s : State) (f : Frame) : Callee → Except RuntimeError (ProgramRef × List Value)
  | .program program args => do
    checkDepth M s
    .ok (program, args.map f.resolve)
  | .value callee args => do
    let userArgs ← (f.resolveListItems args).mapError .invalidArgumentSplice
    checkDepth M s
    let callee := f.resolve callee
    match callee.asFunction with
    | none => .error (.invalidCallable callee)
    | some function =>
      match s.functions[function.raw.toNat]? with
      | none => .error (.invalidFunction function.raw.toNat)
      | some callable =>
        if callable.minArity ≤ userArgs.length ∧ callable.maxArity.all (userArgs.length ≤ ·) then
          .ok (callable.program, callable.captures ++ (if callable.bindSelf then [callee] else []) ++
            [.list userArgs])
        else .error (.invalidCallArity callable.minArity callable.maxArity userArgs.length)
  | .method kind operands => do
    checkDepth M s
    host.method kind (operands.map f.resolve)

/-- `push_frame`: the callee begins, and its result is for the register. -/
def pushFrame (s : State) (f : Frame) (rest : List Frame) (dst : Register) (program : ProgramRef)
    (args : List Value) : Except RuntimeError Progress :=
  (Frame.new program (M.program program).registerCount (some dst) args).map fun callee =>
    s.goOn callee (f.advance :: rest)

/-- An instruction is interpreted. -/
def execute (s : State) (f : Frame) (rest : List Frame) : Opcode → Except RuntimeError Progress
  | .compute dst operation =>
    match operate M host f operation with
    | .ok v => .ok (s.advance (f.write dst v) rest)
    | .error (.raised error) => .ok (s.beginRaise error)
    | .error e => .error e
  | .checkKind value expected site subject =>
    if (f.registers value).kind = expected then .ok (s.advance f rest)
    else .ok (s.beginRaise (checkError M site subject (.kind expected) (f.registers value)))
  | .checkType value expected site subject =>
    if expected.valueMatchesType (f.registers value) then .ok (s.advance f rest)
    else .ok (s.beginRaise (checkError M site subject expected (f.registers value)))
  | .perform effect operands =>
    match host.perform effect (operands.map f.resolve) with
    | .ok () => .ok (s.advance f rest)
    | .error (.raised error) => .ok (s.beginRaise error)
    | .error e => .error e
  | .branch condition ifTrue ifFalse =>
    .ok (s.goOn { f with ip := if truthy (f.registers condition) then ifTrue else ifFalse } rest)
  | .jump target => .ok (s.goOn (f.jumpTo target) rest)
  | .enterTry catches finally_ end_ =>
    .ok (s.advance { f with tryStack := ⟨f.ip + 1, catches, finally_, end_⟩ :: f.tryStack } rest)
  | .exitTry => f.exitTryRegion.map fun f => s.goOn f rest
  | .endFinally => s.endFinally f rest
  | .loadFunction dst program captures minArity maxArity bindSelf =>
    (internFunction s.functions ⟨program, captures.map f.resolve, minArity, maxArity, bindSelf⟩).map
      fun (functions, id) => { s with functions := functions }.advance
        (f.write dst (.function id)) rest
  | .call dst callee => do
    let (program, args) ← resolveCallee M host s f callee
    pushFrame M s f rest dst program args
  | .await dst request operands =>
    (host.request request (operands.map f.resolve)).map fun () =>
      ⟨.suspend, { s with frames := f.advance :: rest, pendingResume := some dst }, none⟩
  | .commit => .ok { s.advance f rest with response := .commit }
  | .suspend => .ok { s.advance f rest with response := .suspend }
  | .rollbackRetry => .ok { s.advance f rest with response := .rollbackRetry }
  | .return value => s.returnFromFrame f rest (f.resolve value)
  | .abort error => .ok ⟨.abort (f.resolve error), s, none⟩
  | .raise error message value =>
    (normalizeRaisedError (f.resolve error) (message.map f.resolve) (value.map f.resolve)).map
      s.beginRaise

/-- `step`. -/
def step (s : State) : Except RuntimeError Progress :=
  match s.frames with
  | [] => .error .emptyCallStack
  | f :: rest =>
    match (M.program f.program).opcodes[f.ip]? with
    | none => .error (.programCounterOutOfBounds f.ip)
    | some op => execute M host s f rest op

end

/-! ## Runs -/

/-- The state in which a program begins. -/
def State.start (program : ProgramRef) : State :=
  ⟨[], [⟨program, 0, fun _ => emptyRelation, none, [], []⟩], none⟩

namespace Machine

/-- **A step of a run**: an instruction of a task that waits for nothing, or the resumption of one that
does. -/
inductive Step (M : Machine) : State → Progress → Prop
  | run {s : State} {progress : Progress} (host : Host) (hready : s.pendingResume = none)
      (h : step M host s = .ok progress) : Step M s progress
  | resume {s : State} {progress : Progress} (value : Value) (hwaits : s.pendingResume.isSome)
      (h : s.resumeWith value = .ok progress) : Step M s progress

/-- **The states of a run** whose steps are all taken from states with some property. -/
inductive Reaches (M : Machine) (From : State → Prop) (program : ProgramRef) : State → Prop
  | start : Reaches M From program (.start program)
  | step {s : State} {progress : Progress} (h : Reaches M From program s) (hfrom : From s)
      (hstep : M.Step s progress) : Reaches M From program progress.state

end Machine

end Mica.Vm
