import WasmEngine.Embedding.Error
import WasmEngine.Machine.Store

/-!
# Instantiation

A module is instantiated in four steps: its fields are allocated in order, its exports are recorded,
its segments are written, and its start function is run.  The first failure ends the whole; what was
allocated or written before it stays.
-/

/-! ## Import objects

What an embedding offers to the imports of a module, by module and name.
-/

namespace WasmEngine

/-- What is offered under a name.  A value becomes a constant global, and a memory or table is copied
for each import. -/
inductive ImportValue where
  | func (type : FuncType) (handle : Nat)
  | global (value : Value)
  | memory (memory : Memory)
  | table (table : Table)
  | existing (value : Extern)

/-- An import object: what it offers, the latest definition first. -/
structure ImportObject where
  definitions : List ((String × String) × ImportValue)

namespace ImportObject

/-- The import object that offers nothing. -/
def empty : ImportObject := ⟨[]⟩

/-- Offers a value under a name, in place of what was offered there. -/
def add (o : ImportObject) (module name : String) (value : ImportValue) : ImportObject :=
  ⟨((module, name), value) :: o.definitions⟩

/-- What is offered under a name. -/
def find? (o : ImportObject) (module name : String) : Option ImportValue :=
  o.definitions.lookup (module, name)

end ImportObject

/-! ## Steps of an instantiation -/

/-- A step of an instantiation. -/
abbrev Linking := EStateM EngineError Store

namespace Linking

variable {α : Type}

/-- What a look-up found, or its fault. -/
def ofResult : Except Fault α → Linking α
  | .ok a => return a
  | .error e => throw (.fault e)

/-- An operation on the store. -/
def onStore (f : StoreM α) : Linking α := fun store =>
  match f store with
  | .ok a store => .ok a store
  | .error e store => .error (.fault e) store

/-- Adds an imported function. -/
def importFunc (decl : ModuleImport) (m : ModuleInstance) (declared : FuncType) :
    ImportValue → Linking ModuleInstance
  | .func type handle => do
    if type ≠ declared then
      throw (.link (.importType decl.module decl.name))
    let address ← onStore (Store.malloc (.func ⟨type, .host handle⟩))
    return { m with funcs := m.funcs ++ [address] }
  | .existing ⟨.func, address⟩ => do
    let f ← ofResult ((← get).func address)
    if f.type ≠ declared then
      throw (.link (.importType decl.module decl.name))
    return { m with funcs := m.funcs ++ [address] }
  | _ => throw (.link (.importKind decl.module decl.name .func))

/-- Adds an imported global. -/
def importGlobal (decl : ModuleImport) (m : ModuleInstance) (type : GlobalType) :
    ImportValue → Linking ModuleInstance
  | .global value => do
    if type.mutability = .var then
      throw (.compile .mutableGlobalImport)
    let address ←
      onStore (Store.malloc (.global ⟨type.valtype, .const, value.cast type.valtype⟩))
    return { m with globals := m.globals ++ [address] }
  | .existing ⟨.global, address⟩ => do
    let g ← ofResult ((← get).global address)
    if g.valtype ≠ type.valtype then
      throw (.link (.importType decl.module decl.name))
    return { m with globals := m.globals ++ [address] }
  | _ => throw (.link (.importKind decl.module decl.name .global))

/-- Adds an imported memory. -/
def importMemory (decl : ModuleImport) (m : ModuleInstance) : ImportValue → Linking ModuleInstance
  | .memory memory => do
    let address ← onStore (Store.malloc (.memory memory))
    return { m with mems := m.mems ++ [address] }
  | .existing ⟨.memory, address⟩ => do
    let _ ← ofResult ((← get).memory address)
    return { m with mems := m.mems ++ [address] }
  | _ => throw (.link (.importKind decl.module decl.name .memory))

/-- Adds an imported table. -/
def importTable (decl : ModuleImport) (m : ModuleInstance) : ImportValue → Linking ModuleInstance
  | .table table => do
    let address ← onStore (Store.malloc (.table table))
    return { m with tables := m.tables ++ [address] }
  | .existing ⟨.table, address⟩ => do
    let _ ← ofResult ((← get).table address)
    return { m with tables := m.tables ++ [address] }
  | _ => throw (.link (.importKind decl.module decl.name .table))

/-- Adds what an import brings in. -/
def resolveImport (imports : ImportObject) (ctx : ModuleContext) (m : ModuleInstance)
    (decl : ModuleImport) : Linking ModuleInstance :=
  match imports.find? decl.module decl.name with
  | none => throw (.compile (.unknownImport decl.module decl.name))
  | some value =>
    match decl.descr with
    | .func d => importFunc decl m (ctx.funcType d.signature) value
    | .global type => importGlobal decl m type value
    | .memory _ => importMemory decl m value
    | .table _ => importTable decl m value

/-- Adds what a field brings in. -/
def allocateField (imports : ImportObject) (ctx : ModuleContext) (owner : Nat)
    (m : ModuleInstance) : Node → Linking ModuleInstance
  | .typeDef t => return { m with types := m.types ++ [t.functype.funcType] }
  | .moduleImport decl => resolveImport imports ctx m decl
  | .func name sig locals body metadata => do
    let code := FuncCode.wasm ⟨name, sig, locals, body, metadata⟩ owner
    let address ← onStore (Store.malloc (.func ⟨ctx.funcType sig, code⟩))
    return { m with funcs := m.funcs ++ [address] }
  | .table t => do
    let address ← onStore (Store.malloc (.table (.create t.limits)))
    return { m with tables := m.tables ++ [address] }
  | .memory d => do
    let memory ← ofResult (Memory.create d.limits)
    let address ← onStore (Store.malloc (.memory memory))
    return { m with mems := m.mems ++ [address] }
  | .global type init _ => do
    let value ← ofResult (ConstantExpr.evaluate (← get) m init)
    let value := value.elim (Value.default type.valtype) (Value.cast type.valtype)
    let address ← onStore (Store.malloc (.global ⟨type.valtype, type.mutability, value⟩))
    return { m with globals := m.globals ++ [address] }
  | _ => return m

/-- Adds what the fields bring in. -/
def allocateFields (imports : ImportObject) (ctx : ModuleContext) (owner : Nat)
    (m : ModuleInstance) : List Node → Linking ModuleInstance
  | [] => return m
  | field :: fields => do
    let m ← allocateField imports ctx owner m field
    allocateFields imports ctx owner m fields

/-- The memory at an index, which must exist. -/
def memoryAt (m : ModuleInstance) (i : Nat) : Linking Nat :=
  match m.mems[i]? with
  | some address => return address
  | none => throw (.compile (.unknownMemory i))

/-- The table at an index, which must exist. -/
def tableAt (m : ModuleInstance) (i : Nat) : Linking Nat :=
  match m.tables[i]? with
  | some address => return address
  | none => throw (.compile (.unknownTable i))

/-- What an export refers to. -/
def resolveExport (refuseI64 : Bool) (m : ModuleInstance) (decl : ModuleExport) :
    Linking Extern := do
  let i ← ofResult decl.descr.id.resolved
  match decl.descr.kind with
  | .func => return ⟨.func, ← ofResult (m.func i)⟩
  | .global => do
    let address ← ofResult (m.global i)
    if refuseI64 then
      let g ← ofResult ((← get).global address)
      if g.valtype = .i64 then
        throw (.link .i64GlobalExport)
    return ⟨.global, address⟩
  | .memory => return ⟨.memory, ← memoryAt m i⟩
  | .table => return ⟨.table, ← tableAt m i⟩

/-- Records the exports among the fields. -/
def recordExports (refuseI64 : Bool) (m : ModuleInstance) : List Node → Linking ModuleInstance
  | [] => return m
  | .moduleExport decl :: fields => do
    let value ← resolveExport refuseI64 m decl
    recordExports refuseI64 { m with exports := m.exports ++ [⟨decl.name, value⟩] } fields
  | _ :: fields => recordExports refuseI64 m fields

/-- Allocates a module and records its exports. -/
def allocate (imports : ImportObject) (refuseI64 : Bool) (m : Module) : Linking Nat := do
  let owner ← onStore (Store.addInstance .empty)
  let i ← allocateFields imports (.ofModule m) owner .empty m.fields
  let i ← recordExports refuseI64 i m.fields
  modify fun store => store.setInstance owner i
  return owner

/-- The addresses of the functions that a segment names. -/
def funcAddresses (m : ModuleInstance) (indices : List Index) : Except Fault (List Nat) :=
  indices.mapM fun index => do m.func (← index.resolved)

/-- Whether a field imports a table. -/
def isTableImport : Node → Bool
  | .moduleImport decl =>
    match decl.descr with
    | .table _ => true
    | _ => false
  | _ => false

/-- Writes the elements of the tables and element segments among the fields; the next table that is
defined has the index `next`. -/
def writeElements (m : ModuleInstance) (next : Nat) : List Node → Linking Unit
  | [] => return ()
  | .table t :: fields => do
    if !t.elements.isEmpty then
      let funcs ← ofResult (funcAddresses m t.elements)
      let address ← tableAt m next
      onStore (Store.fillTable address 0 funcs)
    writeElements m (next + 1) fields
  | .elem target offset funcs :: fields => do
    let address ← tableAt m (← ofResult target.resolved)
    let offset ← ofResult (ConstantExpr.offset (← get) m offset)
    let funcs ← ofResult (funcAddresses m funcs)
    onStore (Store.fillTable address offset funcs)
    writeElements m next fields
  | _ :: fields => writeElements m next fields

/-- Writes the data segments among the fields. -/
def writeData (m : ModuleInstance) : List Node → Linking Unit
  | [] => return ()
  | .data target offset init :: fields => do
    let address ← memoryAt m (← ofResult target.resolved)
    let offset ← ofResult (ConstantExpr.offset (← get) m offset)
    onStore (Store.writeMemory address offset init)
    writeData m fields
  | _ :: fields => writeData m fields

/-- Writes the segments of a module: elements first, then data. -/
def writeSegments (owner : Nat) (m : Module) : Linking Unit := do
  let i ← ofResult ((← get).instance? owner)
  writeElements i (m.fields.countP isTableImport) m.fields
  writeData i m.fields

end Linking

/-- The start function of a module. -/
def Module.start? (m : Module) : Option Index :=
  m.fields.findSome? fun
    | .start index => some index
    | _ => none

/-- An operation of the engine on a store and a world. -/
abbrev Running (σ : Type) := EStateM EngineError (Store × σ)

namespace Running

variable {σ α : Type}

/-- A step of an instantiation. -/
def onLinking (f : Linking α) : Running σ α
  | (store, world) =>
    match f store with
    | .ok a store => .ok a (store, world)
    | .error e store => .error e (store, world)

theorem onLinking_ok {f : Linking α} {s s' : Store} {w : σ} {a : α} (done : f s = .ok a s') :
    onLinking f (s, w) = .ok a (s', w) := by
  simp only [onLinking, done]

theorem onLinking_error {f : Linking α} {s s' : Store} {w : σ} {e : EngineError} (failed : f s = .error e s') :
    onLinking f (s, w) = .error e (s', w) := by
  simp only [onLinking, failed]

/-- A step of an instantiation leaves the world as it is. -/
theorem onLinking_eq_ok_iff {f : Linking α} {s s' : Store} {w w' : σ} {a : α} :
    onLinking f (s, w) = .ok a (s', w') ↔ f s = .ok a s' ∧ w = w' := by
  cases ends : f s with
  | ok b t =>
    rw [onLinking_ok ends]
    constructor
    · rintro ⟨⟩
      exact ⟨rfl, rfl⟩
    · rintro ⟨⟨⟩, rfl⟩
      rfl
  | error e t =>
    rw [onLinking_error ends]
    constructor
    · rintro ⟨⟩
    · rintro ⟨⟨⟩, -⟩

/-- A call of the function at an address. -/
def invoke (env : Environment σ) (fuel address : Nat) (args : List Value) :
    Running σ (List Value) := fun state =>
  match WasmEngine.invoke env fuel address args state with
  | .ok results state => .ok results state
  | .error h state => .error (.run h) state

/-- Instantiates a module and gives the address of its instance. -/
def instantiate (env : Environment σ) (fuel : Nat) (imports : ImportObject) (refuseI64 : Bool)
    (m : Module) : Running σ Nat := do
  let owner ← onLinking (Linking.allocate imports refuseI64 m)
  onLinking (Linking.writeSegments owner m)
  match m.start? with
  | none => return owner
  | some start =>
    let i ← onLinking do Linking.ofResult ((← get).instance? owner)
    let index ← onLinking (Linking.ofResult start.resolved)
    let address ← onLinking (Linking.ofResult (i.func index))
    let _ ← invoke env fuel address []
    return owner

end Running

end WasmEngine
