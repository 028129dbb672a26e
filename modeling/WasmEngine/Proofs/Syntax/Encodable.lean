import WasmEngine.Proofs.Binary.Spelling
import WasmEngine.Proofs.Syntax.Everywhere
import WasmEngine.Proofs.Syntax.References
import WasmEngine.Proofs.Syntax.Resolving

/-!
# Instructions with a binary form

An instruction that has the arguments of its immediate and stands inside few enough blocks has a binary
form once its references are numbers and its signatures stand in place.  Resolving a program makes them
so (`areFields_of_resolve`).
-/

namespace WasmEngine

open Outcome

/-- A reference that a text spells: a name, or a number that takes 32 bits. -/
def Index.IsSpelled : Index → Prop
  | .number n => ∃ k : Nat, n.value = k ∧ k < UInt32.size
  | .identifier _ => True

/-- A reference that was resolved. -/
def Index.IsNumber (i : Index) : Prop := ∃ n, i = .number n

/-- A reference to a position that takes 32 bits. -/
def Index.IsPosition : Index → Prop
  | .number n => ∃ k : Nat, n.value = k ∧ k < UInt32.size
  | .identifier _ => False

theorem Index.IsPosition.isNumber {i : Index} (position : i.IsPosition) : i.IsNumber := by
  cases i with
  | number n => exact ⟨n, rfl⟩
  | identifier => cases position

namespace Node

/-- The arguments that an immediate stands for. -/
inductive Operands (ref : Index → Prop) : Immediate → List Node → Option MemArg → Prop
  | none : Operands ref .none [] none
  | memoryReserved : Operands ref .memoryReserved [] none
  | index {i : Index} (holds : ref i) : Operands ref .index [ofIndex i] none
  | brTable {is : List Index} (some_ : is ≠ []) (all : ∀ i ∈ is, ref i) :
    Operands ref .brTable (is.map ofIndex) none
  | memArg {align offset : Nat} (aligned : align < UInt32.size) (within : offset < UInt32.size) :
    Operands ref .memArg [] (some ⟨align, offset⟩)
  | i32 {v : Int} {raw : String} (fits : Leb128.Fits 31 v) : Operands ref .i32 [.number ⟨v, raw⟩] none
  | i64 {v : Int} {raw : String} (fits : Leb128.Fits 63 v) :
    Operands ref .i64 [.longNumber ⟨.ofInt v, raw⟩] none
  | f32 {bits : Nat} {raw : String} (fits : bits < 2 ^ binary32.width) :
    Operands ref .f32 [.float (.ofF32 bits raw)] none
  | f64 {bits : Nat} {raw : String} (fits : bits < 2 ^ binary64.width) :
    Operands ref .f64 [.float (.ofF64 bits raw)] none

/-- An instruction inside `depth` blocks has the arguments of its immediate, its references and
signatures have a property, and so it is with the instructions inside it. -/
inductive Encodable (ref : Index → Prop) (sig : SignatureRef → Prop) : Nat → Node → Prop
  | instr {depth : Nat} {op : Opcode} {args : List Node} {memArg : Option MemArg}
    (listed : op ∈ Opcode.table) (notEnd : op.byte ≠ Binary.endByte)
    (notElse : op.byte ≠ Binary.elseByte) (notCall : (op.name == "call") = false)
    (operands : Operands ref op.immediate args memArg) :
    Encodable ref sig depth (.instr op.name op.object args memArg)
  | block {depth : Nat} {label : Identifier} {body : List Node} {result : Option Valtype}
    (nested : depth < Binary.maxNesting) (inside : ∀ node ∈ body, Encodable ref sig (depth + 1) node) :
    Encodable ref sig depth (.block label body result)
  | loop {depth : Nat} {label : Identifier} {body : List Node} {result : Option Valtype}
    (nested : depth < Binary.maxNesting) (inside : ∀ node ∈ body, Encodable ref sig (depth + 1) node) :
    Encodable ref sig depth (.loop label result body)
  | ifElse {depth : Nat} {label : Identifier} {consequent alternate : List Node}
    {result : Option Valtype} (nested : depth < Binary.maxNesting)
    (whenTrue : ∀ node ∈ consequent, Encodable ref sig (depth + 1) node)
    (whenFalse : ∀ node ∈ alternate, Encodable ref sig (depth + 1) node) :
    Encodable ref sig depth (.ifElse label result consequent alternate)
  | call {depth : Nat} {i : Index} (holds : ref i) : Encodable ref sig depth (.call i)
  | callIndirect {depth : Nat} {s : SignatureRef} (holds : sig s) :
    Encodable ref sig depth (.callIndirect s)

/-- What fits fewer labels fits more. -/
theorem Encodable.mono {ref : Index → Prop} {sig : SignatureRef → Prop} {depth depth' : Nat}
    {node : Node} (encodable : Encodable ref sig depth node) (le : depth' ≤ depth) :
    Encodable ref sig depth' node := by
  induction encodable generalizing depth' with
  | instr listed notEnd notElse notCall operands =>
    exact .instr listed notEnd notElse notCall operands
  | block nested _ ih =>
    exact .block (Nat.lt_of_le_of_lt le nested) fun node inside => ih node inside (Nat.succ_le_succ le)
  | loop nested _ ih =>
    exact .loop (Nat.lt_of_le_of_lt le nested) fun node inside => ih node inside (Nat.succ_le_succ le)
  | ifElse nested _ _ ihTrue ihFalse =>
    exact .ifElse (Nat.lt_of_le_of_lt le nested)
      (fun node inside => ihTrue node inside (Nat.succ_le_succ le))
      fun node inside => ihFalse node inside (Nat.succ_le_succ le)
  | call holds => exact .call holds
  | callIndirect holds => exact .callIndirect holds

/-- A plain instruction. -/
def IsPlain : Node → Prop
  | .instr .. => True
  | _ => False

/-- Instructions outside of blocks have a binary form. -/
def EncodableIn (ref : Index → Prop) (sig : SignatureRef → Prop) (nodes : List Node) : Prop :=
  ∀ node ∈ nodes, Encodable ref sig 0 node

end Node

/-- What an import brings in has limits that take 32 bits, and a signature with a property. -/
def ImportDescr.IsWritten (sig : SignatureRef → Prop) : ImportDescr → Prop
  | .func d => sig d.signature
  | .table t => Binary.Decode.IsLimits t.limits
  | .memory m => Binary.Decode.IsLimits m.limits
  | .global _ => True

/-- The size of a memory that holds some bytes from its start. -/
def Limits.ofBytes (n : Nat) : Limits := ⟨(n + 0xffff) / 0x10000, some ((n + 0xffff) / 0x10000)⟩

/-- The size of a table that holds some elements from its start. -/
def Limits.ofElements (n : Nat) : Limits := ⟨n, some n⟩

namespace Node

/-- A field of a module, where references, signatures and sequences of instructions have a property.
Limits take 32 bits unless they are the size of the elements or data that were written inside. -/
inductive IsField (ref : Index → Prop) (sig : SignatureRef → Prop) (code : List Node → Prop)
    (sizes : List Nat) : Node → Prop
  | typeDef (t : TypeDef) : IsField ref sig code sizes (.typeDef t)
  | moduleImport {decl : ModuleImport} (written : decl.descr.IsWritten sig) :
    IsField ref sig code sizes (.moduleImport decl)
  | moduleExport {e : ModuleExport} (holds : ref e.descr.id) :
    IsField ref sig code sizes (.moduleExport e)
  | func {name : Identifier} {s : SignatureRef} {locals : List Param} {body : List Node}
    (signature : sig s) (inside : code body) :
    IsField ref sig code sizes (.func name s locals body none)
  | global {type : GlobalType} {init : List Node} {name : Option Identifier} (inside : code init) :
    IsField ref sig code sizes (.global type init name)
  | table {t : TableDef}
    (limits : Binary.Decode.IsLimits t.limits ∨ t.limits = .ofElements t.elements.length)
    (elements : ∀ i ∈ t.elements, ref i) : IsField ref sig code sizes (.table t)
  | memory {m : MemoryDef}
    (limits : Binary.Decode.IsLimits m.limits ∨ ∃ n ∈ sizes, m.limits = .ofBytes n) :
    IsField ref sig code sizes (.memory m)
  | data {target : Index} {offset : List Node} {init : List UInt8} (holds : ref target)
    (inside : code offset) : IsField ref sig code sizes (.data target offset init)
  | elem {target : Index} {offset : List Node} {funcs : List Index} (holds : ref target)
    (inside : code offset) (all : ∀ i ∈ funcs, ref i) :
    IsField ref sig code sizes (.elem target offset funcs)
  | start {i : Index} (holds : ref i) : IsField ref sig code sizes (.start i)

/-- How many bytes a data segment holds. -/
def dataSize? : Node → Option Nat
  | .data _ _ init => some init.length
  | _ => none

end Node

open Node

/-- Nodes are the fields of a module. -/
def AreFields (ref : Index → Prop) (sig : SignatureRef → Prop) (code : List Node → Prop)
    (fields : List Node) : Prop :=
  ∀ field ∈ fields, field.IsField ref sig code (fields.filterMap dataSize?)

section AreFields

variable {ref ref' : Index → Prop} {sig sig' : SignatureRef → Prop} {code code' : List Node → Prop}
  {fields fields' : List Node}

/-- A field is one whatever data sizes are allowed besides its own. -/
theorem Node.IsField.mono {field : Node} {sizes sizes' : List Nat}
    (holds : field.IsField ref sig code sizes) (sub : sizes ⊆ sizes') :
    field.IsField ref sig code sizes' := by
  cases holds with
  | memory limits =>
    exact .memory (limits.imp_right fun ⟨n, listed, size⟩ => ⟨n, sub listed, size⟩)
  | typeDef t => exact .typeDef t
  | moduleImport written => exact .moduleImport written
  | moduleExport holds => exact .moduleExport holds
  | func signature inside => exact .func signature inside
  | global inside => exact .global inside
  | table limits elements => exact .table limits elements
  | data holds inside => exact .data holds inside
  | elem holds inside all => exact .elem holds inside all
  | start holds => exact .start holds

theorem AreFields.nil : AreFields ref sig code [] := nofun

/-- Fields in sequence are fields. -/
theorem AreFields.append (first : AreFields ref sig code fields)
    (second : AreFields ref sig code fields') : AreFields ref sig code (fields ++ fields') := by
  refine List.forall_mem_append.2 ⟨fun field inside => (first field inside).mono ?_,
    fun field inside => (second field inside).mono ?_⟩
  · rw [List.filterMap_append]
    exact List.subset_append_left ..
  · rw [List.filterMap_append]
    exact List.subset_append_right ..

theorem AreFields.singleton {field : Node} (holds : field.IsField ref sig code []) :
    AreFields ref sig code [field] :=
  List.forall_mem_singleton.2 (holds.mono (List.nil_subset _))

/-- A pass over the fields that leaves data segments their bytes. -/
theorem AreFields.of_forall₂ {R : Node → Node → Prop} (each : List.Forall₂ R fields fields')
    (sizes : ∀ field field', R field field' → field'.dataSize? = field.dataSize?)
    (step : ∀ field field' sizes, R field field' → field.IsField ref sig code sizes →
      field'.IsField ref' sig' code' sizes) (holds : AreFields ref sig code fields) :
    AreFields ref' sig' code' fields' := by
  have same : fields'.filterMap dataSize? = fields.filterMap dataSize? := by
    clear holds
    induction each with
    | nil => rfl
    | cons first _ ih => rw [List.filterMap_cons, List.filterMap_cons, sizes _ _ first, ih]
  intro field' inside
  obtain ⟨field, listed, related⟩ := exists_of_forall₂ each inside
  rw [same]
  exact step field field' _ related (holds field listed)

end AreFields

/-! ## Inlining -/

namespace TypeReference

variable {types : List TypeDef} {ref : Index → Prop} {sig : SignatureRef → Prop}

theorem inlineAll_ofIndex (is : List Index) :
    inlineAll types (is.map ofIndex) = .ok (is.map ofIndex) := by
  induction is with
  | nil => rfl
  | cons i is ih =>
    rw [List.map_cons, inlineAll, inline_ofIndex, ih]
    rfl

/-- Arguments hold no signatures. -/
theorem inlineAll_operands {immediate : Immediate} {args : List Node} {memArg : Option MemArg}
    (operands : Operands ref immediate args memArg) : inlineAll types args = .ok args := by
  cases operands with
  | @index i => exact inlineAll_ofIndex [i]
  | brTable => exact inlineAll_ofIndex _
  | _ => rfl

end TypeReference

section Inlining

variable {types : List TypeDef} {ref : Index → Prop} {sig : SignatureRef → Prop} {depth : Nat}

open TypeReference

/-- What every inlined node has, the nodes of an inlined list have. -/
theorem forall_of_inlineAll {R : Node → Prop} {nodes nodes' : List Node}
    (inlined : inlineAll types nodes = .ok nodes')
    (each : ∀ node ∈ nodes, ∀ node', inline types node = .ok node' → R node') :
    ∀ node' ∈ nodes', R node' := by
  intro node' inside
  obtain ⟨node, listed, first⟩ := exists_of_forall₂ (forall₂_of_inlineAll inlined) inside
  exact each node listed node' first

/-- Inlining keeps nodes encodable, and leaves no reference to a type. -/
theorem Node.Encodable.of_inline {node node' : Node} (encodable : node.Encodable ref sig depth)
    (inlined : inline types node = .ok node') : node'.Encodable ref SignatureRef.IsInline depth := by
  induction encodable generalizing node' with
  | instr listed notEnd notElse notCall operands =>
    rw [TypeReference.inline, inlineAll_operands operands] at inlined
    cases inlined
    exact .instr listed notEnd notElse notCall operands
  | block nested _ ih =>
    cases inlines_of_inline inlined with
    | block inner => exact .block nested (forall_of_inlineAll inner fun node inside node' => ih node inside)
    | other unvisited => cases unvisited
  | loop nested _ ih =>
    cases inlines_of_inline inlined with
    | loop inner => exact .loop nested (forall_of_inlineAll inner fun node inside node' => ih node inside)
    | other unvisited => cases unvisited
  | ifElse nested _ _ ihTrue ihFalse =>
    cases inlines_of_inline inlined with
    | ifElse whenTrue whenFalse =>
      exact .ifElse nested (forall_of_inlineAll whenTrue fun node inside node' => ihTrue node inside)
        (forall_of_inlineAll whenFalse fun node inside node' => ihFalse node inside)
    | other unvisited => cases unvisited
  | call holds =>
    cases inlined
    exact .call holds
  | callIndirect =>
    cases inlines_of_inline inlined with
    | callIndirect signature => exact .callIndirect (isInline_of_inlineRef signature)
    | other unvisited => cases unvisited

/-- Inlining leaves the size of data as it was. -/
theorem dataSize?_of_inline {node node' : Node} (inlined : TypeReference.inline types node = .ok node') :
    node'.dataSize? = node.dataSize? := by
  cases inlines_of_inline inlined <;> rfl

/-- Inlining keeps a field encodable, and leaves no reference to a type. -/
theorem Node.IsField.of_inline {node node' : Node} {sizes : List Nat}
    (inlined : TypeReference.inline types node = .ok node')
    (holds : node.IsField ref sig (EncodableIn ref sig) sizes) :
    node'.IsField ref SignatureRef.IsInline (EncodableIn ref SignatureRef.IsInline) sizes := by
  have inside {body body' : List Node} (inner : inlineAll types body = .ok body')
      (encodable : EncodableIn ref sig body) : EncodableIn ref SignatureRef.IsInline body' :=
    forall_of_inlineAll inner fun node listed _ => (encodable node listed).of_inline
  cases holds with
  | @moduleImport decl written =>
    cases inlines_of_inline inlined with
    | importedFunc signature => exact .moduleImport (isInline_of_inlineRef signature)
    | other unvisited =>
      obtain ⟨m, name, descr, id⟩ := decl
      cases descr with
      | func => cases unvisited
      | _ => exact .moduleImport written
  | func _ encodable =>
    cases inlines_of_inline inlined with
    | func signature inner => exact .func (isInline_of_inlineRef signature) (inside inner encodable)
    | other unvisited => cases unvisited
  | global encodable =>
    cases inlines_of_inline inlined with
    | global inner => exact .global (inside inner encodable)
    | other unvisited => cases unvisited
  | data holds encodable =>
    cases inlines_of_inline inlined with
    | data inner => exact .data holds (inside inner encodable)
    | other unvisited => cases unvisited
  | elem holds encodable all =>
    cases inlines_of_inline inlined with
    | elem inner => exact .elem holds (inside inner encodable) all
    | other unvisited => cases unvisited
  | typeDef t =>
    cases inlined
    exact .typeDef t
  | moduleExport holds =>
    cases inlined
    exact .moduleExport holds
  | table limits elements =>
    cases inlined
    exact .table limits elements
  | memory limits =>
    cases inlined
    exact .memory limits
  | start holds =>
    cases inlined
    exact .start holds

end Inlining

/-! ## Replacing names -/

namespace Opcode

set_option maxRecDepth 4000 in
/-- The instructions with an index immediate are those on locals and globals, branches and calls. -/
theorem name_of_index : ∀ op ∈ table, op.immediate = .index → (op.name == "call") = false →
    op.name = "get_local" ∨ op.name = "set_local" ∨ op.name = "tee_local" ∨ op.name = "get_global" ∨
      op.name = "set_global" ∨ op.name = "br" ∨ op.name = "br_if" := by
  decide +kernel

set_option maxRecDepth 4000 in
/-- The instruction with a list of targets is the branch table. -/
theorem name_of_brTable : ∀ op ∈ table, op.immediate = .brTable → op.name = "br_table" := by
  decide +kernel

end Opcode

namespace Scope

variable {s : Scope}

/-- What a name is replaced by. -/
def Gives (s : Scope) (ref : Index → Prop) : Prop :=
  ∀ space name n, s.position? space name = some n → ref (.ofNat n)

/-- A property of references that numbers of 32 bits have. -/
def Literal (ref : Index → Prop) : Prop :=
  ∀ (n : Nat) (raw : String), n < UInt32.size → ref (.number ⟨n, raw⟩)

section Names

variable {ref : Index → Prop} (gives : s.Gives ref) (literal : Literal ref)
include gives literal

theorem gives_enter {depth : Nat} (labels : s.labels.length = depth)
    (nested : depth < Binary.maxNesting) (label : Identifier) : (s.enter label).Gives ref := by
  intro space name n found
  cases space with
  | label =>
    have within := (List.findIdx?_eq_some_iff_getElem.1 found).1
    have few : (s.enter label).labels.length = depth + 1 := by rw [← labels]; rfl
    exact literal n _ (by
      have : Binary.maxNesting < UInt32.size := by decide
      omega)
  | «local» => exact gives .local name n found
  | function => exact gives .function name n found
  | global => exact gives .global name n found
  | memory => exact gives .memory name n found
  | table => exact gives .table name n found

/-- A spelled index is replaced by a position. -/
theorem index_of_spelled {space : Space} {i i' : Index} (spelled : i.IsSpelled)
    (replaced : s.index space i = .ok i') : ref i' := by
  cases i with
  | number n =>
    cases replaced
    obtain ⟨value, raw⟩ := n
    obtain ⟨k, rfl, fits⟩ := spelled
    exact literal k raw fits
  | identifier id =>
    obtain ⟨n, number, replaced⟩ := bind_eq_ok_iff.1 replaced
    cases replaced
    unfold Scope.number at number
    split at number
    · next k found =>
      cases number
      exact gives space _ k found
    · cases number

/-- Spelled indices are replaced by as many positions. -/
theorem indices_of_spelled {space : Space} {is is' : List Index} (spelled : ∀ i ∈ is, i.IsSpelled)
    (replaced : s.indices space is = .ok is') : is'.length = is.length ∧ ∀ i' ∈ is', ref i' := by
  induction is generalizing is' with
  | nil =>
    cases replaced
    exact ⟨rfl, nofun⟩
  | cons i is ih =>
    obtain ⟨first, others⟩ := List.forall_mem_cons.1 spelled
    rw [indices, List.mapM_cons] at replaced
    obtain ⟨i', head, replaced⟩ := bind_eq_ok_iff.1 replaced
    obtain ⟨rest, tail, replaced⟩ := bind_eq_ok_iff.1 replaced
    cases replaced
    obtain ⟨length, all⟩ := ih others tail
    exact ⟨congrArg Nat.succ length,
      List.forall_mem_cons.2 ⟨index_of_spelled gives literal first head, all⟩⟩

end Names

theorem arg_ofIndex (space : Space) (i : Index) :
    s.arg space (ofIndex i) = (do return ofIndex (← s.index space i)) := by
  cases i with
  | number n => rfl
  | identifier id =>
    show (do return .number (← s.number space id.value) : Except ResolveError Node) = _
    rw [index]
    cases s.number space id.value <;> rfl

theorem mapM_arg_ofIndex (space : Space) (is : List Index) :
    (is.map ofIndex).mapM (s.arg space) = (do return (← s.indices space is).map ofIndex) := by
  induction is with
  | nil => rfl
  | cons i is ih =>
    rw [List.map_cons, List.mapM_cons, ih, arg_ofIndex, indices, indices, List.mapM_cons]
    cases s.index space i with
    | error e => rfl
    | ok i' => cases is.mapM (s.index space) <;> rfl

/-- An argument that is no name stays. -/
theorem args_literal (s : Scope) (id : String) {node : Node} (notName : ∀ i, node ≠ .identifier i) :
    s.args id [node] = .ok [node] := by
  have stays (space : Space) : s.arg space node = .ok node := by
    cases node with
    | identifier i => exact absurd rfl (notName i)
    | _ => rfl
  unfold args
  split
  · rw [firstArg, stays]; rfl
  · rw [firstArg, stays]; rfl
  · rw [firstArg, stays]; rfl
  · rw [firstArg, stays]; rfl
  · rw [firstArg, stays]; rfl
  · rw [List.mapM_cons, stays]; rfl
  · rw [List.mapM_cons, stays]; rfl
  · rw [List.mapM_cons, stays]; rfl
  · rfl

theorem args_nil (s : Scope) (id : String) : s.args id [] = .ok [] := by
  unfold args
  split <;> rfl

/-- An instruction with an index immediate has it resolved in one index space. -/
theorem args_index {op : Opcode} (listed : op ∈ Opcode.table) (immediate : op.immediate = .index)
    (notCall : (op.name == "call") = false) :
    ∃ space, ∀ i, s.args op.name [ofIndex i] = (do return [ofIndex (← s.index space i)]) := by
  have first (space : Space) (i : Index) : s.firstArg space [ofIndex i] =
      (do return [ofIndex (← s.index space i)]) := by
    rw [firstArg, arg_ofIndex]
    cases s.index space i <;> rfl
  have label (i : Index) : [ofIndex i].mapM (s.arg .label) =
      (do return [ofIndex (← s.index .label i)]) := by
    rw [List.mapM_cons, arg_ofIndex]
    cases s.index .label i <;> rfl
  obtain name | name | name | name | name | name | name :=
    Opcode.name_of_index op listed immediate notCall
  · exact ⟨.local, fun i => by rw [name]; exact first .local i⟩
  · exact ⟨.local, fun i => by rw [name]; exact first .local i⟩
  · exact ⟨.local, fun i => by rw [name]; exact first .local i⟩
  · exact ⟨.global, fun i => by rw [name]; exact first .global i⟩
  · exact ⟨.global, fun i => by rw [name]; exact first .global i⟩
  · exact ⟨.label, fun i => by rw [name]; exact label i⟩
  · exact ⟨.label, fun i => by rw [name]; exact label i⟩

end Scope

section Replacing

variable {ref : Index → Prop} {sig : SignatureRef → Prop} {s : Scope}

open Scope

/-- Resolving the arguments of a listed instruction keeps them operands of it. -/
theorem Node.Operands.of_args {op : Opcode} {args args' : List Node} {memArg : Option MemArg}
    (listed : op ∈ Opcode.table) (notCall : (op.name == "call") = false) (gives : s.Gives ref)
    (literal : Literal ref) (operands : Operands Index.IsSpelled op.immediate args memArg)
    (replaced : s.args op.name args = .ok args') : Operands ref op.immediate args' memArg := by
  cases immediate : op.immediate with
  | index =>
    rw [immediate] at operands
    cases operands with
    | index spelled =>
      obtain ⟨space, same⟩ := args_index (s := s) listed immediate notCall
      rw [same] at replaced
      obtain ⟨i', number, replaced⟩ := bind_eq_ok_iff.1 replaced
      cases replaced
      exact .index (index_of_spelled gives literal spelled number)
  | brTable =>
    rw [immediate] at operands
    cases operands with
    | @brTable is some_ spelled =>
      rw [Opcode.name_of_brTable op listed immediate] at replaced
      have targets : (do return (← s.indices .label is).map ofIndex) = Except.ok args' := by
        rw [← mapM_arg_ofIndex]
        exact replaced
      obtain ⟨is', numbers, targets⟩ := bind_eq_ok_iff.1 targets
      cases targets
      obtain ⟨length, all⟩ := indices_of_spelled gives literal spelled numbers
      refine .brTable (fun none => some_ ?_) all
      rwa [none, List.length_nil, eq_comm, List.length_eq_zero_iff] at length
  | none | memoryReserved | memArg =>
    rw [immediate] at operands
    cases operands
    rw [args_nil] at replaced
    cases replaced
    constructor <;> assumption
  | i32 | i64 | f32 | f64 =>
    rw [immediate] at operands
    cases operands
    rw [args_literal _ _ fun i same => by cases same] at replaced
    cases replaced
    constructor
    assumption
  | block | callIndirect =>
    rw [immediate] at operands
    cases operands

/-- What every resolved instruction has, the instructions of a resolved body have. -/
theorem forall_of_body {R : Node → Prop} {nodes nodes' : List Node} (replaced : s.body nodes = .ok nodes')
    (each : ∀ node ∈ nodes, ∀ node', s.instr node = .ok node' → R node') : ∀ node' ∈ nodes', R node' := by
  intro node' inside
  obtain ⟨node, listed, first⟩ := exists_of_forall₂ (forall₂_of_body replaced) inside
  exact each node listed node' first

/-- Resolving names keeps nodes encodable, and leaves positions for indices. -/
theorem Node.Encodable.of_instr {node node' : Node} {depth : Nat}
    (encodable : node.Encodable Index.IsSpelled sig depth) (gives : s.Gives ref)
    (literal : Literal ref) (labels : s.labels.length = depth) (replaced : s.instr node = .ok node') :
    node'.Encodable ref sig depth := by
  induction encodable generalizing s node' with
  | instr listed notEnd notElse notCall operands =>
    cases replaces_of_instr replaced with
    | instr inner =>
      exact .instr listed notEnd notElse notCall (operands.of_args listed notCall gives literal inner)
    | other unvisited => cases unvisited
  | @block depth label _ _ nested _ ih =>
    cases replaces_of_instr replaced with
    | block inner =>
      exact .block nested (forall_of_body inner fun node inside _ =>
        ih node inside (gives_enter gives literal labels nested label) (congrArg Nat.succ labels))
    | other unvisited => cases unvisited
  | @loop depth label _ _ nested _ ih =>
    cases replaces_of_instr replaced with
    | loop inner =>
      exact .loop nested (forall_of_body inner fun node inside _ =>
        ih node inside (gives_enter gives literal labels nested label) (congrArg Nat.succ labels))
    | other unvisited => cases unvisited
  | @ifElse depth label _ _ _ nested _ _ ihTrue ihFalse =>
    cases replaces_of_instr replaced with
    | ifElse whenTrue whenFalse =>
      have gives := gives_enter gives literal labels nested label
      exact .ifElse nested
        (forall_of_body whenTrue fun node inside _ => ihTrue node inside gives (congrArg Nat.succ labels))
        (forall_of_body whenFalse fun node inside _ => ihFalse node inside gives (congrArg Nat.succ labels))
    | other unvisited => cases unvisited
  | call spelled =>
    cases replaces_of_instr replaced with
    | call number => exact .call (index_of_spelled gives literal spelled number)
    | other unvisited => cases unvisited
  | callIndirect holds =>
    cases replaced
    exact .callIndirect holds

/-- What the names in a function are replaced by. -/
def Scope.GivesIn (s : Scope) (ref : Index → Prop) : Node → Prop
  | .func _ sig locals _ _ => Scope.Gives { s with locals := localNames sig locals } ref
  | _ => True

/-- Resolving names leaves the size of data as it was. -/
theorem dataSize?_of_field {node node' : Node} (replaced : s.field node = .ok node') :
    node'.dataSize? = node.dataSize? := by
  cases replaces_of_field replaced <;> rfl

/-- Resolving names keeps a field encodable, and leaves positions for indices. -/
theorem Node.IsField.of_field {node node' : Node} {sizes : List Nat} (gives : s.Gives ref)
    (inner : s.GivesIn ref node) (literal : Literal ref) (labels : s.labels = [])
    (replaced : s.field node = .ok node')
    (holds : node.IsField Index.IsSpelled sig (EncodableIn Index.IsSpelled sig) sizes) :
    node'.IsField ref sig (EncodableIn ref sig) sizes := by
  have inside {s : Scope} (gives : s.Gives ref) (labels : s.labels = []) {body body' : List Node}
      (replaced : s.body body = .ok body') (encodable : EncodableIn Index.IsSpelled sig body) :
      EncodableIn ref sig body' :=
    forall_of_body replaced fun node listed _ =>
      (encodable node listed).of_instr gives literal (by rw [labels]; rfl)
  cases holds with
  | func holds encodable =>
    cases replaces_of_field replaced with
    | func body => exact .func holds (inside inner labels body encodable)
    | other unvisited => cases unvisited
  | global encodable =>
    cases replaces_of_field replaced with
    | global init => exact .global (inside gives labels init encodable)
    | other unvisited => cases unvisited
  | data spelled encodable =>
    cases replaces_of_field replaced with
    | data number offset =>
      exact .data (index_of_spelled gives literal spelled number) (inside gives labels offset encodable)
    | other unvisited => cases unvisited
  | elem spelled encodable all =>
    cases replaces_of_field replaced with
    | elem number offset numbers =>
      exact .elem (index_of_spelled gives literal spelled number) (inside gives labels offset encodable)
        (indices_of_spelled gives literal all numbers).2
    | other unvisited => cases unvisited
  | table limits elements =>
    cases replaces_of_field replaced with
    | table numbers =>
      obtain ⟨length, all⟩ := indices_of_spelled gives literal elements numbers
      exact .table (limits.imp_right fun size => by rwa [length]) all
    | other unvisited => cases unvisited
  | moduleExport spelled =>
    cases replaces_of_field replaced with
    | moduleExport number => exact .moduleExport (index_of_spelled gives literal spelled number)
    | other unvisited => cases unvisited
  | start spelled =>
    cases replaces_of_field replaced with
    | start number => exact .start (index_of_spelled gives literal spelled number)
    | other unvisited => cases unvisited
  | typeDef t =>
    cases replaced
    exact .typeDef t
  | moduleImport written =>
    cases replaced
    exact .moduleImport written
  | memory limits =>
    cases replaced
    exact .memory limits

end Replacing

/-! ## Modules -/

/-- How many parameters and locals a function has. -/
def Func.localCount (f : Func) : Nat := (Scope.localNames f.signature f.locals).length

/-- The scope of the fields of a module. -/
def Module.scope (m : Module) : Scope := ⟨.ofFields m.fields, [], []⟩

section Modules

variable {ref : Index → Prop} {m m' : Module} (resolved : m.resolve = .ok m')
  (fields : AreFields Index.IsSpelled (fun _ => True) (EncodableIn Index.IsSpelled fun _ => True)
    m.fields)

open Scope

include resolved fields

/-- Resolving makes the references of a module what its names stand for, and puts signatures in
place. -/
theorem areFields_of_resolve (literal : Literal ref)
    (gives : ∀ inlined, m.inlineTypes = .ok inlined → inlined.scope.Gives ref ∧
      ∀ field ∈ inlined.fields, inlined.scope.GivesIn ref field) :
    AreFields ref SignatureRef.IsInline (EncodableIn ref SignatureRef.IsInline) m'.fields := by
  obtain ⟨inlined, first, inline, replace⟩ := Module.resolve_eq_ok resolved
  obtain ⟨outer, inner⟩ := gives inlined first
  have between := fields.of_forall₂ inline (fun _ _ => dataSize?_of_inline)
    fun _ _ _ => IsField.of_inline
  refine between.of_forall₂ ((List.forall₂_and_left _ _).2 ⟨fun _ inside => inside, replace⟩)
    (fun _ _ same => dataSize?_of_field same.2) fun field field' sizes ⟨listed, replaced⟩ holds => ?_
  exact holds.of_field outer (inner field listed) literal rfl replaced

/-- Every reference of a resolved module is a number. -/
theorem numbers_of_resolve :
    AreFields Index.IsNumber SignatureRef.IsInline
      (EncodableIn Index.IsNumber SignatureRef.IsInline) m'.fields := by
  have gives (s : Scope) : s.Gives Index.IsNumber := fun _ _ _ _ => ⟨_, rfl⟩
  refine areFields_of_resolve resolved fields (fun _ _ _ => ⟨_, rfl⟩) fun inlined _ =>
    ⟨gives _, fun field _ => ?_⟩
  cases field with
  | func => exact gives _
  | _ => trivial

/-- A module without too many definitions refers to positions of 32 bits only. -/
theorem positions_of_resolve (counts : ∀ kind, m'.countOf kind < UInt32.size)
    (locals : ∀ f : Func, f.toNode ∈ m'.fields → f.localCount < UInt32.size) :
    AreFields Index.IsPosition SignatureRef.IsInline
      (EncodableIn Index.IsPosition SignatureRef.IsInline) m'.fields := by
  refine areFields_of_resolve resolved fields (fun n raw fits => ⟨n, rfl, fits⟩) fun inlined first => ?_
  obtain ⟨_, first', -, replace⟩ := Module.resolve_eq_ok resolved
  obtain rfl := Except.ok.inj (first.symm.trans first')
  have few (kind : ExportKind) : definedIn kind inlined.fields < UInt32.size :=
    definedIn_of_forall₂ replace (fun _ _ same => (shape_of_field same).2) kind ▸ counts kind
  have gives (names : List (Option String)) (fits : names.length < UInt32.size) :
      Scope.Gives ⟨.ofFields inlined.fields, names, []⟩ Index.IsPosition := by
    intro space name n found
    refine ⟨n, rfl, ?_⟩
    cases space with
    | function => exact Nat.lt_trans (lt_of_position? .func found) (few .func)
    | global => exact Nat.lt_trans (lt_of_position? .global found) (few .global)
    | memory => exact Nat.lt_trans (lt_of_position? .memory found) (few .memory)
    | table => exact Nat.lt_trans (lt_of_position? .table found) (few .table)
    | «local» => exact Nat.lt_trans (List.findIdx?_eq_some_iff_getElem.1 found).1 fits
    | label => cases found
  refine ⟨gives [] (by decide), fun field listed => ?_⟩
  cases field with
  | func name sig params body metadata =>
    refine gives _ ?_
    obtain ⟨field', inside, replaced⟩ := exists_of_forall₂ replace.flip listed
    obtain ⟨body', -, replaced⟩ := bind_eq_ok_iff.1 replaced
    cases replaced
    exact locals ⟨name, sig, params, body', metadata⟩ inside
  | _ => trivial

end Modules

end WasmEngine
