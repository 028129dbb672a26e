import WasmEngine.Embedding.Config
import WasmEngine.Embedding.Instantiate

/-!
# Sessions

A session holds stores, named instances in them, and the functions that it offers to modules.  While
a store runs it is lent out, and nothing else can use it: a function of the session that calls back
into the store from which it was called is refused.
-/

namespace WasmEngine

/-- An instance of a session: its store, its address there, and its settings. -/
structure Instance where
  store : Nat
  address : Nat
  config : Config

/-- What a function of a session does.  These are the functions that can be described as data; a run takes any
function of the embedding (`Environment.call`), and the operations on stores are the same for all of them. -/
inductive HostAction where
  | echo
  | results (values : List Value)
  | fail (text : String)
  | trap (kind : Trap)
  | reenter (name export_ : String) (args : List Value)
  | probe (name export_ : String)
  | spawn (m : Module)

/-- A function of a session and the name under which its calls are logged. -/
structure HostFunc where
  label : String
  action : HostAction

/-- What the log of a session holds. -/
inductive LogEntry where
  | call (label : String) (args : List Value)
  | probe (names : List String) (hasExtern hasExport : Bool)
  deriving DecidableEq, Repr

/-- A session.  A store that is lent out leaves its place empty. -/
structure Session where
  config : Config
  /-- The number of steps that a run may take. -/
  fuel : Nat
  stores : Array (Option Store)
  hosts : Array HostFunc
  instances : List (String × Instance)
  /-- What was logged, the latest first. -/
  log : List LogEntry
  tracing : Bool
  /-- The lines of the instructions that ran, the latest first. -/
  trace : List String

/-- What an export is. -/
inductive Export where
  | func (address : Nat) (type : FuncType)
  | global (value : Value)
  | memory (address : Nat)
  | table (address : Nat)
  deriving DecidableEq, Repr

/-- An operation on a session. -/
abbrev SessionM := EStateM EngineError Session

namespace Session

/-- A session with one store that has nothing. -/
def start (config : Config) (fuel : Nat) : Session :=
  ⟨config, fuel, #[some .empty], #[], [], [], false, []⟩

/-- The store that all instances share that have none of their own. -/
def shared : Nat := 0

/-- The store at a place, unless it is lent out. -/
def store (s : Session) (i : Nat) : Except Fault Store :=
  match s.stores[i]? with
  | some (some store) => .ok store
  | _ => .error .storeInUse

/-- The instance of a name. -/
def instance? (s : Session) (name : String) : Option Instance := s.instances.lookup name

/-- Names an instance, in place of an older one of that name. -/
def register (s : Session) (name : String) (i : Instance) : Session :=
  { s with instances := (name, i) :: s.instances }

/-- Adds a function and gives its handle. -/
def addHost (f : HostFunc) : SessionM Nat := fun s =>
  .ok s.hosts.size { s with hosts := s.hosts.push f }

/-- Adds a store that has nothing and gives its place. -/
def addStore : SessionM Nat := fun s =>
  .ok s.stores.size { s with stores := s.stores.push (some .empty) }

/-- The log from its beginning, which is emptied. -/
def takeLog : SessionM (List LogEntry) := fun s => .ok s.log.reverse { s with log := [] }

/-- The line of an instruction: the number of frames and the name. -/
def traceLine (depth : Nat) (name : String) : String :=
  Text.padLeft 3 ' ' (toString depth) ++ " " ++ name

/-- Notes an instruction if the session is traced. -/
def observe (depth : Nat) (name : String) (s : Session) : Session :=
  if s.tracing then { s with trace := traceLine depth name :: s.trace } else s

/-- Lends a store to an operation. -/
def lend {α : Type} (i : Nat) (f : Running Session α) : SessionM α := fun s =>
  match s.store i with
  | .error e => .error (.fault e) s
  | .ok store =>
    match f (store, { s with stores := s.stores.setIfInBounds i none }) with
    | .ok a (store, s) => .ok a { s with stores := s.stores.setIfInBounds i (some store) }
    | .error e (store, s) => .error e { s with stores := s.stores.setIfInBounds i (some store) }

/-- What a look-up found, or its fault. -/
def ofResult {α : Type} : Except Fault α → SessionM α
  | .ok a => return a
  | .error e => throw (.fault e)

/-- The index spaces of an instance. -/
def moduleInstance (s : Session) (i : Instance) : Except Fault ModuleInstance := do
  (← s.store i.store).instance? i.address

/-- The names of the exports of an instance; none if its store is lent out. -/
def exportNames (s : Session) (i : Instance) : List String :=
  match s.moduleInstance i with
  | .ok m => m.exports.map ExportInstance.name
  | .error _ => []

/-- What an export name refers to. -/
def lookup (s : Session) (i : Instance) (name : String) : Except Fault (Option Extern) := do
  return (← s.moduleInstance i).export? name

/-- What an export name refers to, if it can be told. -/
def extern? (s : Session) (i : Instance) (name : String) : Option Extern :=
  match s.lookup i name with
  | .ok found => found
  | .error _ => none

/-- The export of a name, if it can be told. -/
def export? (s : Session) (i : Instance) (name : String) : Option Export :=
  match s.extern? i name, s.store i.store with
  | some ⟨.func, address⟩, .ok store => (store.func address).toOption.map fun f => .func address f.type
  | some ⟨.global, address⟩, .ok store => (store.global address).toOption.map fun g => .global g.value
  | some ⟨.memory, address⟩, .ok _ => some (.memory address)
  | some ⟨.table, address⟩, .ok _ => some (.table address)
  | _, _ => none

/-- The value of an exported global. -/
def global (s : Session) (i : Instance) (name : String) : Except Fault Value := do
  match ← s.lookup i name with
  | some ⟨.global, address⟩ => return (← (← s.store i.store).global address).value
  | _ => throw (.unknownExport name)

/-- The address of an exported memory. -/
def memoryAddress (s : Session) (i : Instance) (name : String) : Except Fault Nat := do
  match ← s.lookup i name with
  | some ⟨.memory, address⟩ => return address
  | _ => throw (.unknownExport name)

/-- An exported memory. -/
def memory (s : Session) (i : Instance) (name : String) : Except Fault Memory := do
  let address ← s.memoryAddress i name
  (← s.store i.store).memory address

/-- Writes bytes into an exported memory. -/
def writeMemory (i : Instance) (name : String) (offset : Nat) (bytes : List UInt8) :
    SessionM Unit := do
  let address ← ofResult ((← get).memoryAddress i name)
  lend i.store (.onLinking (.onStore (Store.writeMemory address offset bytes)))

/-- Whether a function takes or gives a 64-bit integer. -/
def usesI64 (type : FuncType) : Bool := (type.args ++ type.result).contains .i64

/-- The address of an exported function that may be called from outside. -/
def callable (i : Instance) (name : String) : SessionM Nat := do
  let s ← get
  match ← ofResult (s.lookup i name) with
  | some ⟨.func, address⟩ =>
    if i.config.refuseI64 then
      let f ← ofResult ((← ofResult (s.store i.store)).func address)
      if usesI64 f.type then
        throw (.link .i64InSignature)
    return address
  | some _ => throw (.fault (.notAFunction name))
  | none => throw (.fault (.unknownExport name))

/-- How a function of a session ends when an operation that it ran did: a run that halts halts it as
well, and any other error is its own failure. -/
def asHost {α : Type} (f : SessionM α) : EStateM Halt Session α := fun s =>
  match f s with
  | .ok a s => .ok a s
  | .error (.run h) s => .error h s
  | .error e s => .error (.fault (.host e.message)) s

/-- Calls a function of the session.  Each store is lent out at most once, so calls nest no deeper
than there are stores; `depth` bounds them. -/
def hostCall : Nat → Nat → List Value → EStateM Halt Session (List Value)
  | 0, _, _ => throw (.fault .storeInUse)
  | depth + 1, handle, args => do
    match (← get).hosts[handle]? with
    | none => return []
    | some f =>
      modify fun s => { s with log := .call f.label args :: s.log }
      let env : Config → Environment Session := fun config =>
        ⟨config.maxDepth, hostCall depth, observe⟩
      match f.action with
      | .echo => return args
      | .results values => return values
      | .fail text => throw (.fault (.host text))
      | .trap kind => throw (.fault (.trap kind))
      | .reenter name target values =>
        match (← get).instance? name with
        | none => return [.i32 0]
        | some i => asHost do
          let address ← callable i target
          lend i.store (Running.invoke (env i.config) (← get).fuel address values)
      | .probe name target =>
        match (← get).instance? name with
        | none => return []
        | some i =>
          modify fun s =>
            let entry := LogEntry.probe (s.exportNames i) (s.extern? i target).isSome
              (s.export? i target).isSome
            { s with log := entry :: s.log }
          return []
      | .spawn m => asHost do
        let s ← get
        let _ ← lend shared
          (Running.instantiate (env s.config) s.fuel .empty s.config.refuseI64 m)
        return []

/-- What runs of a session get from it. -/
def environment (s : Session) (config : Config) : Environment Session :=
  ⟨config.maxDepth, hostCall s.stores.size, observe⟩

/-- Calls the function at an address of a store. -/
def call (store : Nat) (config : Config) (address : Nat) (args : List Value) :
    SessionM (List Value) := do
  let s ← get
  lend store (Running.invoke (s.environment config) s.fuel address args)

/-- Calls an exported function. -/
def invoke (i : Instance) (name : String) (args : List Value) : SessionM (List Value) := do
  call i.store i.config (← callable i name) args

/-- Instantiates a module in a store. -/
def instantiate (store : Nat) (config : Config) (imports : ImportObject) (m : Module) :
    SessionM Instance := do
  let s ← get
  let address ← lend store
    (Running.instantiate (s.environment config) s.fuel imports config.refuseI64 m)
  return ⟨store, address, config⟩

/-- An operation on the shared store. -/
def onShared {α : Type} (f : StoreM α) : SessionM α := lend shared (.onLinking (.onStore f))

/-- Runs an operation and gives the lines of the instructions that it ran. -/
def traced {α : Type} (f : SessionM α) (s : Session) :
    Except EngineError α × List String × Session :=
  match f { s with tracing := true, trace := [] } with
  | .ok a s => (.ok a, s.trace.reverse, { s with tracing := false, trace := [] })
  | .error e s => (.error e, s.trace.reverse, { s with tracing := false, trace := [] })

end Session

end WasmEngine
