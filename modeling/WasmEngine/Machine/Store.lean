import WasmEngine.Machine.Memory
import WasmEngine.Machine.Value

/-!
# The store

The store owns every function, global, memory and table by address.  Addresses are handed out in
order and never again: a freed entry leaves its address empty.  Each instance of a module maps its
indices to addresses.
-/

namespace WasmEngine

/-- What a function does: it runs a body on behalf of an instance, or it is one of the functions of
the embedding, known by a number. -/
inductive FuncCode where
  | wasm (func : Func) (owner : Nat)
  | host (handle : Nat)

/-- A function of the store. -/
structure FuncInstance where
  type : FuncType
  code : FuncCode

/-- Whether a function belongs to the embedding. -/
def FuncInstance.isExternal (f : FuncInstance) : Bool :=
  match f.code with
  | .host _ => true
  | .wasm .. => false

/-- A global of the store. -/
structure GlobalInstance where
  valtype : Valtype
  mutability : Mutability
  value : Value
  deriving DecidableEq, Repr

/-- An entry of the store. -/
inductive StoreEntry where
  | func (func : FuncInstance)
  | global (global : GlobalInstance)
  | memory (memory : Memory)
  | table (table : Table)

/-- The kind of an entry. -/
def StoreEntry.kind : StoreEntry → ExportKind
  | func _ => .func
  | global _ => .global
  | memory _ => .memory
  | table _ => .table

/-- The address of an entry of a kind. -/
structure Extern where
  kind : ExportKind
  address : Nat
  deriving DecidableEq, Repr

/-- An export of an instance. -/
structure ExportInstance where
  name : String
  value : Extern
  deriving DecidableEq, Repr

/-- The index spaces of an instance as addresses. -/
structure ModuleInstance where
  types : List FuncType
  funcs : List Nat
  tables : List Nat
  mems : List Nat
  globals : List Nat
  exports : List ExportInstance
  deriving DecidableEq, Repr

/-- The position that a reference denotes. -/
def Index.resolved : Index → Except Fault Nat
  | .number n => .ok n.toU32
  | .identifier id => .error (.unresolvedIdentifier id.value)

namespace ModuleInstance

/-- The instance that has nothing. -/
def empty : ModuleInstance := ⟨[], [], [], [], [], []⟩

/-- The type that a signature denotes. -/
def funcType (m : ModuleInstance) : SignatureRef → Except Fault FuncType
  | .inline s => .ok s.funcType
  | .ref (.number n) =>
    match m.types[n.toU32]? with
    | some type => .ok type
    | none => .error (.unresolvedIdentifier n.raw)
  | .ref (.identifier id) => .error (.unresolvedIdentifier id.value)

/-- The address of a function. -/
def func (m : ModuleInstance) (i : Nat) : Except Fault Nat :=
  match m.funcs[i]? with
  | some address => .ok address
  | none => .error (.unknownFunction i)

/-- The address of a global. -/
def global (m : ModuleInstance) (i : Nat) : Except Fault Nat :=
  match m.globals[i]? with
  | some address => .ok address
  | none => .error (.unknownGlobal i)

/-- The address of the memory that instructions use. -/
def memory (m : ModuleInstance) : Except Fault Nat :=
  match m.mems.head? with
  | some address => .ok address
  | none => .error .unknownMemory

/-- The address of the table that instructions use. -/
def table (m : ModuleInstance) : Except Fault Nat :=
  match m.tables.head? with
  | some address => .ok address
  | none => .error .unknownTable

/-- The export of a name. -/
def export? (m : ModuleInstance) (name : String) : Option Extern :=
  (m.exports.find? fun e => e.name == name).map ExportInstance.value

end ModuleInstance

/-- The entries and instances by address. -/
structure Store where
  entries : Array (Option StoreEntry)
  instances : Array ModuleInstance

/-- An operation on a store.  What it changed before it failed stays changed. -/
abbrev StoreM := EStateM Fault Store

namespace Store

/-- The store that has nothing. -/
def empty : Store := ⟨#[], #[]⟩

/-- The number of addresses handed out. -/
def size (s : Store) : Nat := s.entries.size

/-- The entry at an address. -/
def get? (s : Store) (address : Nat) : Option StoreEntry := s.entries[address]?.bind id

/-- The function at an address. -/
def func (s : Store) (address : Nat) : Except Fault FuncInstance :=
  match s.get? address with
  | some (.func f) => .ok f
  | _ => .error (.noEntry .func address)

/-- The global at an address. -/
def global (s : Store) (address : Nat) : Except Fault GlobalInstance :=
  match s.get? address with
  | some (.global g) => .ok g
  | _ => .error (.noEntry .global address)

/-- The memory at an address. -/
def memory (s : Store) (address : Nat) : Except Fault Memory :=
  match s.get? address with
  | some (.memory m) => .ok m
  | _ => .error (.noEntry .memory address)

/-- The table at an address. -/
def table (s : Store) (address : Nat) : Except Fault Table :=
  match s.get? address with
  | some (.table t) => .ok t
  | _ => .error (.noEntry .table address)

/-- The instance at an address. -/
def instance? (s : Store) (address : Nat) : Except Fault ModuleInstance :=
  match s.instances[address]? with
  | some m => .ok m
  | none => .error (.noInstance address)

/-- What a look-up in a store found, or its fault. -/
def ofResult {α : Type} : Except Fault α → StoreM α
  | .ok a => return a
  | .error e => throw e

/-- Puts an entry at a new address. -/
def malloc (entry : StoreEntry) : StoreM Nat := fun s =>
  .ok s.entries.size { s with entries := s.entries.push (some entry) }

/-- Puts an entry at an address that was handed out. -/
def set (address : Nat) (entry : StoreEntry) : StoreM Unit := fun s =>
  if address < s.size then
    .ok () { s with entries := s.entries.setIfInBounds address (some entry) }
  else .error (.noEntry entry.kind address) s

/-- Empties an address. -/
def free (s : Store) (address : Nat) : Store :=
  { s with entries := s.entries.setIfInBounds address none }

/-- Adds an instance at a new address. -/
def addInstance (m : ModuleInstance) : StoreM Nat := fun s =>
  .ok s.instances.size { s with instances := s.instances.push m }

/-- Replaces an instance. -/
def setInstance (s : Store) (address : Nat) (m : ModuleInstance) : Store :=
  { s with instances := s.instances.setIfInBounds address m }

/-- Changes the memory at an address. -/
def mapMemory (f : Memory → Memory) (s : Store) (address : Nat) : Store :=
  { s with
    entries := s.entries.modify address fun
      | some (.memory m) => some (.memory (f m))
      | entry => entry }

/-- Writes bytes into the memory at an address. -/
def writeMemory (address position : Nat) (bytes : List UInt8) : StoreM Unit := fun s =>
  match s.memory address with
  | .error e => .error e s
  | .ok m =>
    if m.contains position bytes.length then .ok () (s.mapMemory (·.put position bytes) address)
    else .error (.trap .outOfBounds) s

/-- Grows the memory at an address and gives its former size, or −1. -/
def growMemory (address delta : Nat) : StoreM Int := do
  let m ← ofResult ((← get).memory address)
  let (previous, grown) := m.grow delta
  set address (.memory grown)
  return previous

/-- Fills slots of the table at an address. -/
def fillTable (address offset : Nat) (funcs : List Nat) : StoreM Unit := do
  let t ← ofResult ((← get).table address)
  let filled ← ofResult (t.fill offset funcs)
  set address (.table filled)

/-- Assigns the global at an address. -/
def assign (address : Nat) (value : Value) : StoreM Unit := do
  let g ← ofResult ((← get).global address)
  if g.mutability = .const then
    throw .immutableGlobal
  set address (.global { g with value := value.cast g.valtype })

end Store

end WasmEngine

/-! ## Constant expressions

The initialisers of globals and the offsets of segments.
-/

namespace WasmEngine.ConstantExpr

/-- The value of the last instruction that gives one, or of those before the expression. -/
def evaluateFrom (store : Store) (m : ModuleInstance) (result : Option Value) :
    List Node → Except Fault (Option Value)
  | [] => .ok result
  | .instr id object args _ :: rest =>
    match id, object, args.head? with
    | "const", some t, some literal => do
      let v ← Value.ofLiteral t literal
      evaluateFrom store m (some v) rest
    | "get_global", none, some (.number n) => do
      let address ← m.global n.toU32
      let g ← store.global address
      evaluateFrom store m (some g.value) rest
    | "get_global", none, some (.identifier id) => .error (.unresolvedIdentifier id.value)
    | "end", none, _ => evaluateFrom store m result rest
    | _, _, _ => .error .invalidConstant
  | _ :: _ => .error .invalidConstant

/-- The value of a constant expression, if it gives one. -/
def evaluate (store : Store) (m : ModuleInstance) (expr : List Node) :
    Except Fault (Option Value) :=
  evaluateFrom store m none expr

/-- The value of the offset of a segment. -/
def offset (store : Store) (m : ModuleInstance) (expr : List Node) : Except Fault Nat :=
  match evaluate store m expr with
  | .ok (some (.i32 b)) => .ok b.toNat
  | .ok _ => .error .invalidConstant
  | .error e => .error e

end WasmEngine.ConstantExpr
