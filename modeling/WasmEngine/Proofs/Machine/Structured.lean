import WasmEngine.Machine.Executor

/-!
# Structured evaluation

The meaning of instructions by recursion on the syntax.  A sequence completes normally, or it
branches so many labels outwards, or it returns; the construct that a branch aims at catches it.
There are no frames here and no labels among the operands: what is open is what the recursion is in.
-/

namespace WasmEngine.Structured

/-- The state of an evaluation inside one call.  The topmost operand is the last. -/
structure Activation (σ : Type) where
  store : Store
  world : σ
  locals : List Value
  operands : List Value

/-- How a sequence ends.  Its values are its operands if it ends normally. -/
inductive Completion where
  | normal
  | branch (depth : Nat) (values : List Value)
  | ret (values : List Value)
  deriving DecidableEq, Repr

/-- What an instruction sees of its surroundings. -/
structure Scope where
  /-- The instance that the function belongs to. -/
  owner : Nat
  /-- The number of values that the function returns. -/
  returns : Nat
  /-- The number of values that a branch to each label carries, the innermost first. -/
  labels : List Nat
  /-- The number of functions and constructs that are open. -/
  depth : Nat

/-- The scope in a construct. -/
def Scope.inside (scope : Scope) (arity : Nat) : Scope :=
  { scope with labels := arity :: scope.labels, depth := scope.depth + 1 }

/-- A part of an evaluation. -/
abbrev Eval (σ : Type) := EStateM Halt (Activation σ)

variable {σ α : Type}

/-- Ends the evaluation with a fault. -/
def fail (e : Fault) : Eval σ α := throw (.fault e)

/-- What a look-up found, or its fault. -/
def ofResult : Except Fault α → Eval σ α
  | .ok a => return a
  | .error e => fail e

/-- Values as a stack that holds nothing else. -/
def stackOf (vs : List Value) : Stack := ⟨(vs.map StackEntry.value).reverse⟩

/-- An operation on the operands. -/
def onOperands (f : StackM α) : Eval σ α := fun a =>
  match f (stackOf a.operands) with
  | .ok v s => .ok v { a with operands := s.values }
  | .error e s => .error (.fault e) { a with operands := s.values }

/-- An operation on the store. -/
def onStore (f : StoreM α) : Eval σ α := fun a =>
  match f a.store with
  | .ok v s => .ok v { a with store := s }
  | .error e s => .error (.fault e) { a with store := s }

/-- An operation on the store and the world that is not part of this call. -/
def outside (f : EStateM Halt (Store × σ) α) : Eval σ α := fun a =>
  match f (a.store, a.world) with
  | .ok v s => .ok v { a with store := s.1, world := s.2 }
  | .error e s => .error e { a with store := s.1, world := s.2 }

/-- Replaces the operands. -/
def setOperands (vs : List Value) : Eval σ Unit := modify fun a => { a with operands := vs }

/-- Assigns a local. -/
def setLocal (i : Nat) (v : Value) : Eval σ Unit := do
  let locals := (← get).locals
  if i < locals.length then set { ← get with locals := locals.set i v } else fail (.unknownLocal i)

/-- The instance of the function. -/
def currentInstance (scope : Scope) : Eval σ ModuleInstance := do
  ofResult ((← get).store.instance? scope.owner)

/-- The position that an immediate of an instruction denotes. -/
def indexArg (name : String) (args : List Node) (position : Nat) : Eval σ Nat :=
  match args[position]? with
  | some (.number n) => return n.toU32
  | some (.identifier id) => fail (.unresolvedIdentifier id.value)
  | _ => fail (.unknownInstruction name)

/-! ## Instructions that open nothing -/

/-- A load. -/
def load (scope : Scope) (t : Valtype) (id : String) (memArg : Option MemArg) : Eval σ Unit := do
  let position := effectiveAddress (← onOperands Stack.popI32) memArg
  let address ← ofResult (← currentInstance scope).memory
  let m ← ofResult ((← get).store.memory address)
  onOperands (Stack.push (← ofResult (m.load t id position)))

/-- A store. -/
def store (scope : Scope) (t : Valtype) (id : String) (memArg : Option MemArg) :
    Eval σ Unit := do
  let v ← onOperands (Stack.popTyped t)
  let position := effectiveAddress (← onOperands Stack.popI32) memArg
  let address ← ofResult (← currentInstance scope).memory
  let _ ← ofResult ((← get).store.memory address)
  match storeWidth? t id with
  | some width => onStore (Store.writeMemory address position (LittleEndian.bytes width v.bits))
  | none => fail (.unknownInstruction (mnemonic (some t) id))

/-- An instruction on a type. -/
def onType (scope : Scope) (t : Valtype) (id : String) (args : List Node)
    (memArg : Option MemArg) : Eval σ Unit :=
  if id = "const" then
    match args.head? with
    | some literal => do onOperands (Stack.push (← ofResult (Value.ofLiteral t literal)))
    | none => fail (.unknownInstruction (mnemonic (some t) id))
  else if Text.beginsWith "load" id then load scope t id memArg
  else if Text.beginsWith "store" id then store scope t id memArg
  else onOperands (Stack.numeric t id)

/-- An instruction that works on no type of its own and goes on to the next one. -/
def simple (scope : Scope) (id : String) (args : List Node) : Eval σ Unit :=
  match id with
  | "nop" => return ()
  | "end" => return ()
  | "unreachable" => fail (.trap .unreachable)
  | "drop" => do
    let _ ← onOperands Stack.pop
  | "select" => do
    let condition ← onOperands Stack.popI32
    let b ← onOperands Stack.pop
    let a ← onOperands Stack.pop
    onOperands (Stack.push (if condition = 0 then b else a))
  | "get_local" => do
    let i ← indexArg id args 0
    match (← get).locals[i]? with
    | some v => onOperands (Stack.push v)
    | none => fail (.unknownLocal i)
  | "set_local" => do
    let i ← indexArg id args 0
    setLocal i (← onOperands Stack.pop)
  | "tee_local" => do
    let i ← indexArg id args 0
    let v ← onOperands Stack.pop
    onOperands (Stack.push v)
    setLocal i v
  | "get_global" => do
    let m ← currentInstance scope
    let address ← ofResult (m.global (← indexArg id args 0))
    let g ← ofResult ((← get).store.global address)
    onOperands (Stack.push g.value)
  | "set_global" => do
    let m ← currentInstance scope
    let address ← ofResult (m.global (← indexArg id args 0))
    let v ← onOperands Stack.pop
    onStore (Store.assign address v)
  | "current_memory" => do
    let address ← ofResult (← currentInstance scope).memory
    let m ← ofResult ((← get).store.memory address)
    onOperands (Stack.push (.ofInt .i32 m.pages))
  | "grow_memory" => do
    let address ← ofResult (← currentInstance scope).memory
    let delta ← onOperands Stack.popI32
    let previous ← onStore (Store.growMemory address delta.toNat)
    onOperands (Stack.push (.ofInt .i32 previous))
  | _ => fail (.unknownInstruction id)

/-! ## Control -/

/-- Completes with a branch and the values that it carries. -/
def branch (scope : Scope) (depth : Nat) : Eval σ Completion :=
  match scope.labels[depth]? with
  | some arity => do return .branch depth (← onOperands (Stack.popN arity))
  | none => fail (.labelNotFound depth)

/-- An instruction that works on no type of its own. -/
def plain (scope : Scope) (id : String) (args : List Node) : Eval σ Completion :=
  match id with
  | "br" => do branch scope (← indexArg id args 0)
  | "br_if" => do
    let condition ← onOperands Stack.popI32
    if condition = 0 then return .normal else branch scope (← indexArg id args 0)
  | "br_table" => do
    let selector := (← onOperands Stack.popI32).toNat
    if args.isEmpty then
      fail (.unknownInstruction id)
    branch scope (← indexArg id args (min selector (args.length - 1)))
  | "return" => do return .ret (← onOperands (Stack.popN scope.returns))
  | _ => do
    simple scope id args
    return .normal

/-- Ends the evaluation if as many functions and constructs are open as may be. -/
def enter (maxDepth depth : Nat) : Eval σ Unit := do
  if maxDepth ≤ depth then
    fail .callStackOverflow

/-- Evaluates the body of a construct on no operands.  The construct leaves so many values, those of
its body or those of a branch to its label. -/
def construct (arity : Nat) (body : Eval σ Completion) : Eval σ Completion := do
  let below := (← get).operands
  setOperands []
  match ← body with
  | .normal => do
    let results ← onOperands (Stack.popN arity)
    setOperands (below ++ results)
    return .normal
  | .branch 0 results => do
    setOperands (below ++ results)
    return .normal
  | .branch (depth + 1) values => return .branch depth values
  | .ret values => return .ret values

/-- Evaluates the body of a loop again, without operands, as long as it branches to its own label,
but so many times at most. -/
def repeated (body : Eval σ Completion) : Nat → Eval σ Completion
  | 0 => throw .outOfFuel
  | times + 1 => do
    match ← body with
    | .branch 0 _ => do
      setOperands []
      repeated body times
    | completion => return completion

/-- The results of a function body that completed. -/
def results (arity : Nat) : Completion → Eval σ (List Value)
  | .normal => onOperands (Stack.popN arity)
  | .branch _ values => return values
  | .ret values => return values

/-- The locals at the start of a call. -/
def startingLocals (f : Func) (args : List Value) : List Value :=
  args ++ f.locals.map fun l => Value.default l.valtype

/-- Evaluates the body of a function to its results.  The function is its only label. -/
def functionBody (env : Environment σ) (sequence : Scope → List Node → Eval σ Completion)
    (depth : Nat) (f : Func) (owner : Nat) (type : FuncType) : Eval σ (List Value) := do
  let arity := type.result.length
  enter env.maxDepth depth
  let completion ← sequence ⟨owner, arity, [arity], depth + 1⟩ f.body
  results arity completion

/-- Calls a function with arguments, which are the first of its fresh locals. -/
def function (env : Environment σ) (sequence : Scope → List Node → Eval σ Completion)
    (depth : Nat) (f : Func) (owner : Nat) (type : FuncType) (args : List Value) :
    EStateM Halt (Store × σ) (List Value) := fun (store, world) =>
  match functionBody env sequence depth f owner type
      ⟨store, world, startingLocals f args, []⟩ with
  | .ok vs a => .ok vs (a.store, a.world)
  | .error e a => .error e (a.store, a.world)

/-- Calls the function at an address with arguments from the operands. -/
def call (env : Environment σ) (sequence : Scope → List Node → Eval σ Completion) (depth : Nat)
    (address : Nat) : Eval σ Unit := do
  let callee ← ofResult ((← get).store.func address)
  let args ← onOperands (Stack.popTypes callee.type.args)
  match callee.code with
  | .host handle =>
    let results ← outside fun (store, world) =>
      match env.call handle args world with
      | .ok results world => .ok results (store, world)
      | .error e world => .error e (store, world)
    onOperands (Stack.pushAll (Exec.castResults results callee.type))
  | .wasm f owner =>
    let results ← outside (function env sequence depth f owner callee.type args)
    onOperands (Stack.pushAll results)

/-- An instruction, whose bodies are given as sequences in scopes.  A loop runs so many times at
most. -/
def instruction (env : Environment σ) (sequence : Scope → List Node → Eval σ Completion)
    (times : Nat) (scope : Scope) : Node → Eval σ Completion
  | .instr id (some t) args memArg => do
    onType scope t id args memArg
    return .normal
  | .instr id none args _ => plain scope id args
  | .block _ body result => do
    let arity := result.toList.length
    enter env.maxDepth scope.depth
    construct arity (sequence (scope.inside arity) body)
  | .loop _ result body => do
    enter env.maxDepth scope.depth
    construct result.toList.length (repeated (sequence (scope.inside 0) body) times)
  | .ifElse _ result consequent alternate => do
    let arity := result.toList.length
    let condition ← onOperands Stack.popI32
    enter env.maxDepth scope.depth
    construct arity
      (sequence (scope.inside arity) (if condition = 0 then alternate else consequent))
  | .call index => do
    let m ← currentInstance scope
    let i ← ofResult index.resolved
    call env sequence scope.depth (← ofResult (m.func i))
    return .normal
  | .callIndirect sig => do
    let m ← currentInstance scope
    let expected ← ofResult (m.funcType sig)
    let table ← ofResult m.table
    let element ← onOperands Stack.popI32
    let t ← ofResult ((← get).store.table table)
    let address ← ofResult (t.get element.toNat)
    let callee ← ofResult ((← get).store.func address)
    if callee.type = expected then
      call env sequence scope.depth address
      return .normal
    else fail (.trap .indirectCallTypeMismatch)
  | node => fail (.unknownInstruction node.kind.name)

/-- Tells the embedding about an instruction. -/
def observe (env : Environment σ) (scope : Scope) (node : Node) : Eval σ Unit :=
  modify fun a =>
    { a with world := env.observe scope.depth (node.instructionName?.getD "") a.world }

/-- Evaluates a sequence.  The number bounds the instructions in a row and inside each other. -/
def eval (env : Environment σ) : Nat → Scope → List Node → Eval σ Completion
  | 0, _, _ => throw .outOfFuel
  | _ + 1, _, [] => return .normal
  | fuel + 1, scope, node :: nodes => do
    observe env scope node
    match ← instruction env (eval env fuel) fuel scope node with
    | .normal => eval env fuel scope nodes
    | completion => return completion

/-- Evaluates a function from its call to its results, which must have the declared types. -/
def evalFunction (env : Environment σ) (fuel : Nat) (f : Func) (owner : Nat) (type : FuncType)
    (args : List Value) : EStateM Halt (Store × σ) (List Value) := do
  let results ← function env (eval env fuel) 0 f owner type args
  match Stack.popTypes type.result (stackOf results) with
  | .ok results _ => return results
  | .error e _ => throw (.fault e)

end WasmEngine.Structured
