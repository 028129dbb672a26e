import WasmEngine.Machine.Memory
import WasmEngine.Machine.Stack
import WasmEngine.Machine.Store
import WasmEngine.Machine.Value

/-!
# The executor

Function bodies run on a list of frames, so that recursion in a program is bounded by the number of
frames and not by the embedding.  The functions of the embedding act on a state of their own, the
world, which the executor only passes on.
-/

/-! ## Frames

Every call and every construct that is entered has a frame.  A frame knows the function that it
belongs to and the path from the body of the function to the sequence that it runs.
-/

namespace WasmEngine

/-- What a frame runs. -/
inductive FrameKind where
  | function (locals : List Value) (owner : Nat)
  | block
  | loop
  deriving DecidableEq, Repr

/-- A frame. -/
structure Frame where
  func : Func
  path : List Step
  /-- The position of the next instruction. -/
  pc : Nat
  kind : FrameKind
  /-- The number of values that the frame leaves when it ends. -/
  arity : Nat
  /-- The place of the frame of the function, counted from the outermost frame. -/
  function : Nat

namespace Frame

/-- The frame of a call. -/
def call (func : Func) (owner : Nat) (locals : List Value) (arity place : Nat) : Frame :=
  ⟨func, [], 0, .function locals owner, arity, place⟩

/-- The frame of a construct in the sequence of a frame. -/
def child (frame : Frame) (step : Step) (arity : Nat) : Frame :=
  { frame with
    path := frame.path ++ [step]
    pc := 0
    kind :=
      match step with
      | .loop _ => .loop
      | _ => .block
    arity }

/-- Whether a branch to the frame starts it again. -/
def isLoop (frame : Frame) : Bool :=
  match frame.kind with
  | .loop => true
  | _ => false

/-- The sequence at the end of a path that starts at a sequence of the function `name`. -/
def follow (name : String) : List Node → List Step → Except Fault (List Node)
  | code, [] => .ok code
  | code, step :: path =>
    match step, code[step.position]? with
    | .block _, some (.block _ body _) => follow name body path
    | .loop _, some (.loop _ _ body) => follow name body path
    | .consequent _, some (.ifElse _ _ consequent _) => follow name consequent path
    | .alternate _, some (.ifElse _ _ _ alternate) => follow name alternate path
    | _, _ => .error (.noConstruct step name)

/-- The sequence that a frame runs. -/
def code (frame : Frame) : Except Fault (List Node) :=
  follow frame.func.name.value frame.func.body frame.path

end Frame

/-! ## Runs -/

/-- Why a run has no result. -/
inductive Halt where
  | fault (fault : Fault)
  | outOfFuel
  deriving DecidableEq, Repr

/-- What a run gets from the embedding. -/
structure Environment (σ : Type) where
  /-- The greatest number of frames. -/
  maxDepth : Nat
  /-- Calls a function of the embedding. -/
  call : Nat → List Value → EStateM Halt σ (List Value)
  /-- Sees the number of frames and the name of each instruction before it runs. -/
  observe : Nat → String → σ → σ

/-- The state of a run.  The innermost frame is the first. -/
structure Execution (σ : Type) where
  store : Store
  stack : Stack
  frames : List Frame
  world : σ

/-- A part of a run. -/
abbrev Exec (σ : Type) := EStateM Halt (Execution σ)

namespace Exec

variable {σ α : Type}

/-- Ends the run with a fault. -/
def fail (e : Fault) : Exec σ α := throw (.fault e)

/-- What a look-up found, or its fault. -/
def ofResult : Except Fault α → Exec σ α
  | .ok a => return a
  | .error e => fail e

/-- An operation on the stack. -/
def onStack (f : StackM α) : Exec σ α
  | ⟨store, stack, frames, world⟩ =>
    match f stack with
    | .ok a stack => .ok a ⟨store, stack, frames, world⟩
    | .error e stack => .error (.fault e) ⟨store, stack, frames, world⟩

/-- An operation on the store. -/
def onStore (f : StoreM α) : Exec σ α
  | ⟨store, stack, frames, world⟩ =>
    match f store with
    | .ok a store => .ok a ⟨store, stack, frames, world⟩
    | .error e store => .error (.fault e) ⟨store, stack, frames, world⟩

/-- An operation on the world. -/
def onWorld (f : EStateM Halt σ α) : Exec σ α
  | ⟨store, stack, frames, world⟩ =>
    match f world with
    | .ok a world => .ok a ⟨store, stack, frames, world⟩
    | .error e world => .error e ⟨store, stack, frames, world⟩

/-- Replaces the frames. -/
def setFrames (frames : List Frame) : Exec σ Unit := modify fun x => { x with frames }

/-- The innermost frame. -/
def top : Exec σ Frame := do
  match (← get).frames with
  | frame :: _ => return frame
  | [] => fail .stackUnderflow

/-- The frame of the function that runs, and how many frames lie inside it. -/
def functionFrame : Exec σ (Frame × Nat) := do
  let frames := (← get).frames
  let inside := frames.length - 1 - (← top).function
  match frames[inside]? with
  | some frame => return (frame, inside)
  | none => fail .stackUnderflow

/-- The locals and the instance of the function that runs. -/
def activation : Exec σ (List Value × Nat) := do
  match (← functionFrame).1.kind with
  | .function locals owner => return (locals, owner)
  | _ => fail .stackUnderflow

/-- The instance of the function that runs. -/
def currentInstance : Exec σ ModuleInstance := do
  let (_, owner) ← activation
  ofResult ((← get).store.instance? owner)

/-- Replaces the locals of the function that runs. -/
def setLocals (locals : List Value) : Exec σ Unit := do
  let (frame, inside) ← functionFrame
  let (_, owner) ← activation
  setFrames ((← get).frames.set inside { frame with kind := .function locals owner })

/-- Enters a frame, unless there are as many as there may be. -/
def pushFrame (maxDepth : Nat) (frame : Frame) : Exec σ Unit := do
  let frames := (← get).frames
  if maxDepth ≤ frames.length then
    fail .callStackOverflow
  setFrames (frame :: frames)

/-- Enters a function with its arguments. -/
def enterFunction (maxDepth : Nat) (f : Func) (owner : Nat) (type : FuncType)
    (args : List Value) : Exec σ Unit := do
  let locals := args ++ f.locals.map fun l => Value.default l.valtype
  let arity := type.result.length
  let place := (← get).frames.length
  onStack (Stack.pushLabel arity)
  pushFrame maxDepth (.call f owner locals arity place)

/-- Enters a construct.  A branch to a loop carries no values. -/
def enterBlock (maxDepth : Nat) (step : Step) (result : Option Valtype) : Exec σ Unit := do
  let arity := result.toList.length
  let frame := (← top).child step arity
  onStack (Stack.pushLabel (if frame.isLoop then 0 else arity))
  pushFrame maxDepth frame

/-- Leaves so many frames and the one around them; a loop among these starts again instead. -/
def branch (depth : Nat) : Exec σ Unit := do
  let frames := (← get).frames
  match frames.head?, frames[depth]? with
  | some frame, some target =>
    if frame.function + depth < frames.length then
      if target.isLoop then
        let _ ← onStack (Stack.branch depth true)
        setFrames ({ target with pc := 0 } :: frames.drop (depth + 1))
      else
        let _ ← onStack (Stack.branch depth false)
        setFrames (frames.drop (depth + 1))
    else fail (.labelNotFound depth)
  | _, _ => fail (.labelNotFound depth)

/-- The results of a function of the embedding at the types of the function. -/
def castResults (results : List Value) (type : FuncType) : List Value :=
  (results.zip type.result).map fun p => p.1.cast p.2

/-- Calls the function at an address with arguments from the stack. -/
def call (env : Environment σ) (address : Nat) : Exec σ Unit := do
  let callee ← ofResult ((← get).store.func address)
  let args ← onStack (Stack.popTypes callee.type.args)
  match callee.code with
  | .host handle =>
    let results ← onWorld (env.call handle args)
    onStack (Stack.pushAll (castResults results callee.type))
  | .wasm f owner => enterFunction env.maxDepth f owner callee.type args

/-- The position that an immediate of an instruction denotes. -/
def indexArg (name : String) (args : List Node) (position : Nat) : Exec σ Nat :=
  match args[position]? with
  | some (.number n) => return n.toU32
  | some (.identifier id) => fail (.unresolvedIdentifier id.value)
  | _ => fail (.unknownInstruction name)

/-- Runs a load. -/
def load (t : Valtype) (id : String) (memArg : Option MemArg) : Exec σ Unit := do
  let position := effectiveAddress (← onStack Stack.popI32) memArg
  let address ← ofResult (← currentInstance).memory
  let m ← ofResult ((← get).store.memory address)
  let v ← ofResult (m.load t id position)
  onStack (Stack.push v)

/-- Runs a store. -/
def store (t : Valtype) (id : String) (memArg : Option MemArg) : Exec σ Unit := do
  let v ← onStack (Stack.popTyped t)
  let position := effectiveAddress (← onStack Stack.popI32) memArg
  let address ← ofResult (← currentInstance).memory
  let _ ← ofResult ((← get).store.memory address)
  match storeWidth? t id with
  | some width => onStore (Store.writeMemory address position (LittleEndian.bytes width v.bits))
  | none => fail (.unknownInstruction (mnemonic (some t) id))

/-- Runs an instruction on a type. -/
def onType (t : Valtype) (id : String) (args : List Node) (memArg : Option MemArg) :
    Exec σ Unit :=
  if id = "const" then
    match args.head? with
    | some literal => do onStack (Stack.push (← ofResult (Value.ofLiteral t literal)))
    | none => fail (.unknownInstruction (mnemonic (some t) id))
  else if Text.beginsWith "load" id then load t id memArg
  else if Text.beginsWith "store" id then store t id memArg
  else onStack (Stack.numeric t id)

/-- Runs an instruction that works on no type of its own. -/
def plain (id : String) (args : List Node) : Exec σ Unit :=
  match id with
  | "nop" => return ()
  | "end" => return ()
  | "unreachable" => fail (.trap .unreachable)
  | "drop" => do
    let _ ← onStack Stack.pop
  | "select" => do
    let condition ← onStack Stack.popI32
    let b ← onStack Stack.pop
    let a ← onStack Stack.pop
    onStack (Stack.push (if condition = 0 then b else a))
  | "get_local" => do
    let i ← indexArg id args 0
    match (← activation).1[i]? with
    | some v => onStack (Stack.push v)
    | none => fail (.unknownLocal i)
  | "set_local" => do
    let i ← indexArg id args 0
    let v ← onStack Stack.pop
    let locals := (← activation).1
    if i < locals.length then setLocals (locals.set i v) else fail (.unknownLocal i)
  | "tee_local" => do
    let i ← indexArg id args 0
    let v ← onStack Stack.pop
    onStack (Stack.push v)
    let locals := (← activation).1
    if i < locals.length then setLocals (locals.set i v) else fail (.unknownLocal i)
  | "get_global" => do
    let m ← currentInstance
    let address ← ofResult (m.global (← indexArg id args 0))
    let g ← ofResult ((← get).store.global address)
    onStack (Stack.push g.value)
  | "set_global" => do
    let m ← currentInstance
    let address ← ofResult (m.global (← indexArg id args 0))
    let v ← onStack Stack.pop
    onStore (Store.assign address v)
  | "br" => do branch (← indexArg id args 0)
  | "br_if" => do
    let condition ← onStack Stack.popI32
    if condition = 0 then return () else branch (← indexArg id args 0)
  | "br_table" => do
    let selector := (← onStack Stack.popI32).toNat
    if args.isEmpty then
      fail (.unknownInstruction id)
    branch (← indexArg id args (min selector (args.length - 1)))
  | "return" => do
    let frame ← top
    branch ((← get).frames.length - 1 - frame.function)
  | "current_memory" => do
    let address ← ofResult (← currentInstance).memory
    let m ← ofResult ((← get).store.memory address)
    onStack (Stack.push (.ofInt .i32 m.pages))
  | "grow_memory" => do
    let address ← ofResult (← currentInstance).memory
    let delta ← onStack Stack.popI32
    let previous ← onStore (Store.growMemory address delta.toNat)
    onStack (Stack.push (.ofInt .i32 previous))
  | _ => fail (.unknownInstruction id)

/-- Runs an instruction that stands at a position of the sequence of the innermost frame. -/
def instruction (env : Environment σ) (position : Nat) : Node → Exec σ Unit
  | .instr id (some t) args memArg => onType t id args memArg
  | .instr id none args _ => plain id args
  | .block _ _ result => enterBlock env.maxDepth (.block position) result
  | .loop _ result _ => enterBlock env.maxDepth (.loop position) result
  | .ifElse _ result _ _ => do
    let condition ← onStack Stack.popI32
    let step := if condition = 0 then Step.alternate position else Step.consequent position
    enterBlock env.maxDepth step result
  | .call index => do
    let m ← currentInstance
    let i ← ofResult index.resolved
    call env (← ofResult (m.func i))
  | .callIndirect sig => do
    let m ← currentInstance
    let expected ← ofResult (m.funcType sig)
    let table ← ofResult m.table
    let element ← onStack Stack.popI32
    let t ← ofResult ((← get).store.table table)
    let address ← ofResult (t.get element.toNat)
    let callee ← ofResult ((← get).store.func address)
    if callee.type = expected then call env address
    else fail (.trap .indirectCallTypeMismatch)
  | node => fail (.unknownInstruction node.kind.name)

/-- Tells the embedding about an instruction. -/
def observe (env : Environment σ) (node : Node) : Exec σ Unit :=
  modify fun x =>
    { x with world := env.observe x.frames.length (node.instructionName?.getD "") x.world }

/-- Runs the next instruction of a frame, or leaves the frame at its end. -/
def step (env : Environment σ) (frame : Frame) (outer : List Frame) : Exec σ Unit := do
  let code ← ofResult frame.code
  match code[frame.pc]? with
  | none =>
    setFrames outer
    onStack (Stack.exitLabel frame.arity)
  | some node =>
    setFrames ({ frame with pc := frame.pc + 1 } :: outer)
    observe env node
    instruction env frame.pc node

/-- Runs until no frame is left, for so many steps at most. -/
def run (env : Environment σ) (fuel : Nat) : Exec σ Unit := do
  match (← get).frames with
  | [] => return ()
  | frame :: outer =>
    match fuel with
    | 0 => throw .outOfFuel
    | fuel + 1 => do
      step env frame outer
      run env fuel

/-- Runs a function from its call to its results. -/
def runFunction (env : Environment σ) (fuel : Nat) (f : Func) (owner : Nat) (type : FuncType)
    (args : List Value) : Exec σ (List Value) := do
  enterFunction env.maxDepth f owner type args
  run env fuel
  let results ← onStack (Stack.popTypes type.result)
  let stack := (← get).stack
  if stack.entries.isEmpty then return results else fail (.leftover stack.size)

end Exec

/-- Calls the function at an address.  Arguments are cast to the types of the parameters. -/
def invoke {σ : Type} (env : Environment σ) (fuel address : Nat) (args : List Value) :
    EStateM Halt (Store × σ) (List Value) := fun (store, world) =>
  match store.func address with
  | .error e => .error (.fault e) (store, world)
  | .ok callee =>
    if args.length ≠ callee.type.args.length then
      .error (.fault (.arityMismatch address args.length callee.type.args.length)) (store, world)
    else
      let args := (args.zip callee.type.args).map fun p => p.1.cast p.2
      match callee.code with
      | .host handle =>
        match env.call handle args world with
        | .ok results world => .ok (Exec.castResults results callee.type) (store, world)
        | .error e world => .error e (store, world)
      | .wasm f owner =>
        match Exec.runFunction env fuel f owner callee.type args ⟨store, .empty, [], world⟩ with
        | .ok results x => .ok results (x.store, x.world)
        | .error e x => .error e (x.store, x.world)

end WasmEngine
