import Mathlib.Data.List.Forall2
import WasmEngine.Proofs.Outcome
import WasmEngine.Syntax.Resolution
import WasmEngine.Typing.Context

/-!
# References outside of functions

Exports, the start function, tables, segments and initialisers refer to functions, globals, memories
and tables.  Resolving leaves the references that are numbers as they are, and makes the others numbers
of something that the module has (`Module.refers_of_resolve`).
-/

namespace WasmEngine

open Outcome

/-- Where a reference stands. -/
inductive Place where
  | exported
  | start
  | initialiser
  | table
  | segment
  deriving DecidableEq, Repr

namespace Node

/-- An instruction reads a global, by itself or inside. -/
inductive Reads : Node → Index → Prop
  | here {i : Index} {args : List Node} {memArg : Option MemArg} :
    Reads (.instr "get_global" none (ofIndex i :: args) memArg) i
  | block {label : Identifier} {body : List Node} {result : Option Valtype} {node : Node} {i : Index}
    (inside : node ∈ body) (reads : Reads node i) : Reads (.block label body result) i
  | loop {label : Identifier} {body : List Node} {result : Option Valtype} {node : Node} {i : Index}
    (inside : node ∈ body) (reads : Reads node i) : Reads (.loop label result body) i
  | consequent {label : Identifier} {whenTrue whenFalse : List Node} {result : Option Valtype}
    {node : Node} {i : Index} (inside : node ∈ whenTrue) (reads : Reads node i) :
    Reads (.ifElse label result whenTrue whenFalse) i
  | alternate {label : Identifier} {whenTrue whenFalse : List Node} {result : Option Valtype}
    {node : Node} {i : Index} (inside : node ∈ whenFalse) (reads : Reads node i) :
    Reads (.ifElse label result whenTrue whenFalse) i

/-- A field outside of functions refers to something of a kind. -/
inductive Refers : Node → Place → ExportKind → Index → Prop
  | exported (e : ModuleExport) : Refers (.moduleExport e) .exported e.descr.kind e.descr.id
  | start (i : Index) : Refers (.start i) .start .func i
  | initialiser {type : GlobalType} {init : List Node} {name : Option Identifier} {node : Node}
    {i : Index} (inside : node ∈ init) (reads : node.Reads i) :
    Refers (.global type init name) .initialiser .global i
  | element {t : TableDef} {i : Index} (inside : i ∈ t.elements) : Refers (.table t) .table .func i
  | elemTable (target : Index) (offset : List Node) (funcs : List Index) :
    Refers (.elem target offset funcs) .segment .table target
  | elemFunc {target : Index} {offset : List Node} {funcs : List Index} {i : Index}
    (inside : i ∈ funcs) : Refers (.elem target offset funcs) .segment .func i
  | elemOffset {target : Index} {offset : List Node} {funcs : List Index} {node : Node} {i : Index}
    (inside : node ∈ offset) (reads : node.Reads i) :
    Refers (.elem target offset funcs) .segment .global i
  | dataMemory (target : Index) (offset : List Node) (values : List UInt8) :
    Refers (.data target offset values) .segment .memory target
  | dataOffset {target : Index} {offset : List Node} {values : List UInt8} {node : Node} {i : Index}
    (inside : node ∈ offset) (reads : node.Reads i) :
    Refers (.data target offset values) .segment .global i

/-- What a field adds to a module. -/
def defines : Node → Option ExportKind
  | .moduleImport decl =>
    match decl.descr with
    | .func _ => some .func
    | .global _ => some .global
    | .memory _ => some .memory
    | .table _ => some .table
  | .func .. => some .func
  | .global .. => some .global
  | .memory _ => some .memory
  | .table _ => some .table
  | _ => none

end Node

open Node

/-- How many functions, tables, memories or globals fields add to a module, imports included. -/
def definedIn (kind : ExportKind) (fields : List Node) : Nat :=
  fields.countP (·.defines == some kind)

/-- How many functions, tables, memories or globals a module has, imports included. -/
def Module.countOf (m : Module) (kind : ExportKind) : Nat := definedIn kind m.fields

theorem definedIn_cons (kind : ExportKind) (field : Node) (fields : List Node) :
    definedIn kind (field :: fields) =
      (if field.defines = some kind then 1 else 0) + definedIn kind fields := by
  rw [definedIn, List.countP_cons, Nat.add_comm, definedIn]
  simp only [beq_iff_eq]

/-! ## Pointwise passes -/

section Pointwise

variable {α : Type} {R : Node → Node → Prop} {nodes nodes' : List Node}

/-- An element of a related list is related to one of the other. -/
theorem exists_of_forall₂ {β : Type} {S : α → β → Prop} {as : List α} {bs : List β}
    (each : List.Forall₂ S as bs) {b : β} (inside : b ∈ bs) : ∃ a ∈ as, S a b := by
  induction each with
  | nil => cases inside
  | cons first _ ih =>
    obtain rfl | later := List.mem_cons.1 inside
    · exact ⟨_, List.mem_cons_self, first⟩
    · obtain ⟨a, listed, related⟩ := ih later
      exact ⟨a, List.mem_cons_of_mem _ listed, related⟩

/-- Related fields that define the same kinds have as many definitions of each. -/
theorem definedIn_of_forall₂ (each : List.Forall₂ R nodes nodes')
    (same : ∀ node node', R node node' → node'.defines = node.defines) (kind : ExportKind) :
    definedIn kind nodes' = definedIn kind nodes := by
  induction each with
  | nil => rfl
  | cons first _ ih => rw [definedIn_cons, definedIn_cons, ih, same _ _ first]

/-- Mapping a list relates its elements to their images. -/
theorem forall₂_of_mapM {f : Node → Except ResolveError Node} (mapped : nodes.mapM f = .ok nodes') :
    List.Forall₂ (fun node node' => f node = .ok node') nodes nodes' := by
  induction nodes generalizing nodes' with
  | nil =>
    obtain rfl := Except.ok.inj mapped
    exact .nil
  | cons node nodes ih =>
    rw [List.mapM_cons] at mapped
    obtain ⟨first, head, mapped⟩ := bind_eq_ok_iff.1 mapped
    obtain ⟨rest, tail, mapped⟩ := bind_eq_ok_iff.1 mapped
    obtain rfl := pure_eq_ok_iff.1 mapped
    exact .cons head (ih tail)

/-- Inlining a list inlines its elements. -/
theorem inlineAll_eq_mapM (types : List TypeDef) (nodes : List Node) :
    TypeReference.inlineAll types nodes = nodes.mapM (TypeReference.inline types) := by
  induction nodes with
  | nil => rfl
  | cons node nodes ih => rw [TypeReference.inlineAll, List.mapM_cons, ih]

/-- Resolving a body resolves its instructions. -/
theorem body_eq_mapM (s : Scope) (nodes : List Node) : s.body nodes = nodes.mapM s.instr := by
  induction nodes with
  | nil => rfl
  | cons node nodes ih => rw [Scope.body, List.mapM_cons, ih]

theorem forall₂_of_inlineAll {types : List TypeDef}
    (inlined : TypeReference.inlineAll types nodes = .ok nodes') :
    List.Forall₂ (fun node node' => TypeReference.inline types node = .ok node') nodes nodes' :=
  forall₂_of_mapM (inlineAll_eq_mapM types nodes ▸ inlined)

theorem forall₂_of_body {s : Scope} (replaced : s.body nodes = .ok nodes') :
    List.Forall₂ (fun node node' => s.instr node = .ok node') nodes nodes' :=
  forall₂_of_mapM (body_eq_mapM s nodes ▸ replaced)

end Pointwise

/-! ## Inlining -/

namespace TypeReference

variable {types : List TypeDef}

/-- Whether inlining may change a node. -/
def visits : Node → Bool
  | .program _ | .module .. | .func .. | .instr .. | .block .. | .loop .. | .ifElse .. | .callIndirect _
  | .global .. | .elem .. | .data .. | .funcImport _ | .moduleImport ⟨_, _, .func _, _⟩ => true
  | _ => false

/-- What a node is inlined to, by the signature that it holds and the nodes below it. -/
inductive Inlines (types : List TypeDef) : Node → Node → Prop
  | program {body body' : List Node} (inner : inlineAll types body = .ok body') :
      Inlines types (.program body) (.program body')
  | module {id : Option String} {fields fields' : List Node} {metadata : Option ModuleMetadata}
      (inner : inlineAll types fields = .ok fields') :
      Inlines types (.module id fields metadata) (.module id fields' metadata)
  | func {name : Identifier} {sig sig' : SignatureRef} {locals : List Param} {body body' : List Node}
      {metadata : Option FuncMetadata} (signature : inlineRef types sig = .ok sig')
      (inner : inlineAll types body = .ok body') :
      Inlines types (.func name sig locals body metadata) (.func name sig' locals body' metadata)
  | instr {id : String} {object : Option Valtype} {args args' : List Node} {memArg : Option MemArg}
      (inner : inlineAll types args = .ok args') :
      Inlines types (.instr id object args memArg) (.instr id object args' memArg)
  | block {label : Identifier} {body body' : List Node} {result : Option Valtype}
      (inner : inlineAll types body = .ok body') : Inlines types (.block label body result) (.block label body' result)
  | loop {label : Identifier} {result : Option Valtype} {body body' : List Node}
      (inner : inlineAll types body = .ok body') : Inlines types (.loop label result body) (.loop label result body')
  | ifElse {label : Identifier} {result : Option Valtype} {consequent consequent' alternate alternate' : List Node}
      (whenTrue : inlineAll types consequent = .ok consequent')
      (whenFalse : inlineAll types alternate = .ok alternate') :
      Inlines types (.ifElse label result consequent alternate) (.ifElse label result consequent' alternate')
  | callIndirect {sig sig' : SignatureRef} (signature : inlineRef types sig = .ok sig') :
      Inlines types (.callIndirect sig) (.callIndirect sig')
  | global {type : GlobalType} {init init' : List Node} {name : Option Identifier}
      (inner : inlineAll types init = .ok init') : Inlines types (.global type init name) (.global type init' name)
  | elem {target : Index} {offset offset' : List Node} {funcs : List Index}
      (inner : inlineAll types offset = .ok offset') :
      Inlines types (.elem target offset funcs) (.elem target offset' funcs)
  | data {target : Index} {offset offset' : List Node} {content : List UInt8}
      (inner : inlineAll types offset = .ok offset') :
      Inlines types (.data target offset content) (.data target offset' content)
  | funcImport {id : Identifier} {sig sig' : SignatureRef} (signature : inlineRef types sig = .ok sig') :
      Inlines types (.funcImport ⟨id, sig⟩) (.funcImport ⟨id, sig'⟩)
  | importedFunc {module name : String} {id : Identifier} {sig sig' : SignatureRef} {id' : Option Identifier}
      (signature : inlineRef types sig = .ok sig') :
      Inlines types (.moduleImport ⟨module, name, .func ⟨id, sig⟩, id'⟩)
        (.moduleImport ⟨module, name, .func ⟨id, sig'⟩, id'⟩)
  | other {node : Node} (unvisited : visits node = false) : Inlines types node node

/-- All that inlining can do to a node. -/
theorem inlines_of_inline {node node' : Node} (inlined : inline types node = .ok node') :
    Inlines types node node' := by
  cases node with
  | func =>
    rw [inline] at inlined
    obtain ⟨_, signature, inlined⟩ := bind_eq_ok_iff.1 inlined
    obtain ⟨_, inner, inlined⟩ := bind_eq_ok_iff.1 inlined
    cases inlined
    exact .func signature inner
  | ifElse =>
    rw [inline] at inlined
    obtain ⟨_, whenTrue, inlined⟩ := bind_eq_ok_iff.1 inlined
    obtain ⟨_, whenFalse, inlined⟩ := bind_eq_ok_iff.1 inlined
    cases inlined
    exact .ifElse whenTrue whenFalse
  | program | module | instr | block | loop | callIndirect | global | elem | data =>
    rw [inline] at inlined
    obtain ⟨_, inner, inlined⟩ := bind_eq_ok_iff.1 inlined
    cases inlined
    constructor
    exact inner
  | funcImport =>
    rw [inline] at inlined
    obtain ⟨_, inner, inlined⟩ := bind_eq_ok_iff.1 inlined
    cases inlined
    obtain ⟨_, signature, inner⟩ := bind_eq_ok_iff.1 inner
    cases inner
    exact .funcImport signature
  | moduleImport decl =>
    obtain ⟨m, name, descr, id⟩ := decl
    cases descr with
    | func =>
      rw [inline] at inlined
      obtain ⟨_, inner, inlined⟩ := bind_eq_ok_iff.1 inlined
      cases inlined
      obtain ⟨_, signature, inner⟩ := bind_eq_ok_iff.1 inner
      cases inner
      exact .importedFunc signature
    | _ =>
      cases inlined
      exact .other rfl
  | _ =>
    cases inlined
    exact .other rfl

/-- Inlining changes no more than signatures. -/
theorem shape_of_inline {node node' : Node} (inlined : inline types node = .ok node') :
    node'.kind = node.kind ∧ node'.defines = node.defines := by
  cases inlines_of_inline inlined <;> exact ⟨rfl, rfl⟩

/-- Inlining leaves indices as they are. -/
theorem inline_ofIndex (i : Index) : inline types (ofIndex i) = .ok (ofIndex i) := by
  cases i <;> rfl

/-- Inlining makes no node an index. -/
theorem eq_of_inline_ofIndex {node : Node} {i : Index} (inlined : inline types node = .ok (ofIndex i)) :
    node = ofIndex i := by
  have kind := (shape_of_inline inlined).1
  cases node with
  | number | identifier => exact Except.ok.inj inlined
  | _ => cases i <;> cases kind

theorem reads_of_inline {node node' : Node} {i : Index} (reads : node'.Reads i)
    (inlined : inline types node = .ok node') : node.Reads i := by
  induction reads generalizing node with
  | here =>
    cases inlines_of_inline inlined with
    | instr inner =>
      cases forall₂_of_inlineAll inner with
      | cons first _ => exact eq_of_inline_ofIndex first ▸ .here
    | other unvisited => cases unvisited
  | block inside _ ih =>
    cases inlines_of_inline inlined with
    | block inner =>
      obtain ⟨_, listed, first⟩ := exists_of_forall₂ (forall₂_of_inlineAll inner) inside
      exact .block listed (ih first)
    | other unvisited => cases unvisited
  | loop inside _ ih =>
    cases inlines_of_inline inlined with
    | loop inner =>
      obtain ⟨_, listed, first⟩ := exists_of_forall₂ (forall₂_of_inlineAll inner) inside
      exact .loop listed (ih first)
    | other unvisited => cases unvisited
  | consequent inside _ ih =>
    cases inlines_of_inline inlined with
    | ifElse whenTrue _ =>
      obtain ⟨_, listed, first⟩ := exists_of_forall₂ (forall₂_of_inlineAll whenTrue) inside
      exact .consequent listed (ih first)
    | other unvisited => cases unvisited
  | alternate inside _ ih =>
    cases inlines_of_inline inlined with
    | ifElse _ whenFalse =>
      obtain ⟨_, listed, first⟩ := exists_of_forall₂ (forall₂_of_inlineAll whenFalse) inside
      exact .alternate listed (ih first)
    | other unvisited => cases unvisited

/-- A reference of an inlined node was one of the node. -/
theorem refers_of_inline {node node' : Node} {place : Place} {kind : ExportKind} {i : Index}
    (inlined : inline types node = .ok node') (refers : node'.Refers place kind i) :
    node.Refers place kind i := by
  cases inlines_of_inline inlined with
  | global inner =>
    cases refers with
    | initialiser inside reads =>
      obtain ⟨_, listed, first⟩ := exists_of_forall₂ (forall₂_of_inlineAll inner) inside
      exact .initialiser listed (reads_of_inline reads first)
  | elem inner =>
    cases refers with
    | elemTable => exact .elemTable ..
    | elemFunc inside => exact .elemFunc inside
    | elemOffset inside reads =>
      obtain ⟨_, listed, first⟩ := exists_of_forall₂ (forall₂_of_inlineAll inner) inside
      exact .elemOffset listed (reads_of_inline reads first)
  | data inner =>
    cases refers with
    | dataMemory => exact .dataMemory ..
    | dataOffset inside reads =>
      obtain ⟨_, listed, first⟩ := exists_of_forall₂ (forall₂_of_inlineAll inner) inside
      exact .dataOffset listed (reads_of_inline reads first)
  | other => exact refers
  | _ => cases refers

end TypeReference

/-! ## Replacing names -/

namespace Scope

variable {s : Scope}

/-- Whether names may be replaced in an instruction. -/
def visits : Node → Bool
  | .instr .. | .call _ | .block .. | .loop .. | .ifElse .. => true
  | _ => false

/-- An instruction and what it is with its names replaced. -/
inductive Replaces (s : Scope) : Node → Node → Prop
  | instr {id : String} {object : Option Valtype} {args args' : List Node} {memArg : Option MemArg}
      (inner : s.args id args = .ok args') : Replaces s (.instr id object args memArg) (.instr id object args' memArg)
  | call {i i' : Index} (number : s.index .function i = .ok i') : Replaces s (.call i) (.call i')
  | block {label : Identifier} {body body' : List Node} {result : Option Valtype}
      (inner : (s.enter label).body body = .ok body') : Replaces s (.block label body result) (.block label body' result)
  | loop {label : Identifier} {result : Option Valtype} {body body' : List Node}
      (inner : (s.enter label).body body = .ok body') : Replaces s (.loop label result body) (.loop label result body')
  | ifElse {label : Identifier} {result : Option Valtype} {consequent consequent' alternate alternate' : List Node}
      (whenTrue : (s.enter label).body consequent = .ok consequent')
      (whenFalse : (s.enter label).body alternate = .ok alternate') :
      Replaces s (.ifElse label result consequent alternate) (.ifElse label result consequent' alternate')
  | other {node : Node} (unvisited : visits node = false) : Replaces s node node

/-- All that replacing names can do to an instruction. -/
theorem replaces_of_instr {node node' : Node} (replaced : s.instr node = .ok node') : Replaces s node node' := by
  cases node with
  | instr | call | block | loop =>
    rw [instr] at replaced
    obtain ⟨_, inner, replaced⟩ := bind_eq_ok_iff.1 replaced
    cases replaced
    constructor
    exact inner
  | ifElse =>
    rw [instr] at replaced
    obtain ⟨_, whenTrue, replaced⟩ := bind_eq_ok_iff.1 replaced
    obtain ⟨_, whenFalse, replaced⟩ := bind_eq_ok_iff.1 replaced
    cases replaced
    exact .ifElse whenTrue whenFalse
  | _ =>
    cases replaced
    exact .other rfl

/-- Whether names may be replaced in a field. -/
def visitsField : Node → Bool
  | .func .. | .start _ | .moduleExport _ | .global .. | .table _ | .elem .. | .data .. => true
  | _ => false

/-- A field and what it is with its names replaced. -/
inductive ReplacesField (s : Scope) : Node → Node → Prop
  | func {name : Identifier} {sig : SignatureRef} {locals : List Param} {body body' : List Node}
      {metadata : Option FuncMetadata} (inner : { s with locals := localNames sig locals }.body body = .ok body') :
      ReplacesField s (.func name sig locals body metadata) (.func name sig locals body' metadata)
  | start {i i' : Index} (number : s.index .function i = .ok i') : ReplacesField s (.start i) (.start i')
  | moduleExport {e : ModuleExport} {i : Index} (number : s.index (exportSpace e.descr.kind) e.descr.id = .ok i) :
      ReplacesField s (.moduleExport e) (.moduleExport { e with descr := { e.descr with id := i } })
  | global {type : GlobalType} {init init' : List Node} {name : Option Identifier} (inner : s.body init = .ok init') :
      ReplacesField s (.global type init name) (.global type init' name)
  | table {t : TableDef} {elements : List Index} (numbers : s.indices .function t.elements = .ok elements) :
      ReplacesField s (.table t) (.table { t with elements })
  | elem {target target' : Index} {offset offset' : List Node} {funcs funcs' : List Index}
      (number : s.index .table target = .ok target') (inner : s.body offset = .ok offset')
      (numbers : s.indices .function funcs = .ok funcs') :
      ReplacesField s (.elem target offset funcs) (.elem target' offset' funcs')
  | data {target target' : Index} {offset offset' : List Node} {content : List UInt8}
      (number : s.index .memory target = .ok target') (inner : s.body offset = .ok offset') :
      ReplacesField s (.data target offset content) (.data target' offset' content)
  | other {node : Node} (unvisited : visitsField node = false) : ReplacesField s node node

/-- All that replacing names can do to a field. -/
theorem replaces_of_field {node node' : Node} (replaced : s.field node = .ok node') : ReplacesField s node node' := by
  cases node with
  | func | start | moduleExport | global | table =>
    obtain ⟨_, inner, replaced⟩ := bind_eq_ok_iff.1 replaced
    cases replaced
    constructor
    exact inner
  | elem =>
    obtain ⟨_, number, replaced⟩ := bind_eq_ok_iff.1 replaced
    obtain ⟨_, inner, replaced⟩ := bind_eq_ok_iff.1 replaced
    obtain ⟨_, numbers, replaced⟩ := bind_eq_ok_iff.1 replaced
    cases replaced
    exact .elem number inner numbers
  | data =>
    obtain ⟨_, number, replaced⟩ := bind_eq_ok_iff.1 replaced
    obtain ⟨_, inner, replaced⟩ := bind_eq_ok_iff.1 replaced
    cases replaced
    exact .data number inner
  | _ =>
    cases replaced
    exact .other rfl

/-- Replacing names changes no more than references. -/
theorem shape_of_field {node node' : Node} (replaced : s.field node = .ok node') :
    node'.kind = node.kind ∧ node'.defines = node.defines := by
  cases replaces_of_field replaced <;> exact ⟨rfl, rfl⟩

/-- An argument is resolved to an index only from one. -/
theorem index_of_arg {space : Space} {node : Node} {i : Index}
    (replaced : s.arg space node = .ok (ofIndex i)) :
    ∃ j, node = ofIndex j ∧ s.index space j = .ok i := by
  cases node with
  | identifier id =>
    obtain ⟨n, number, replaced⟩ := bind_eq_ok_iff.1 replaced
    cases i with
    | number m =>
      obtain rfl : n = m := by simpa [ofIndex] using pure_eq_ok_iff.1 replaced
      exact ⟨.identifier id, rfl, by rw [index, number]; rfl⟩
    | identifier => cases replaced
  | number n =>
    cases i with
    | number m =>
      cases replaced
      exact ⟨.number n, rfl, rfl⟩
    | identifier => cases replaced
  | _ => cases i <;> cases replaced

/-- An instruction reads a global after its names were replaced where it read one before. -/
theorem reads_of_instr {node node' : Node} {i : Index} (reads : node'.Reads i)
    (replaced : s.instr node = .ok node') : ∃ j, node.Reads j ∧ s.index .global j = .ok i := by
  induction reads generalizing node s with
  | here =>
    cases replaces_of_instr replaced with
    | @instr _ _ args _ _ inner =>
      have first : s.firstArg .global args = .ok _ := inner
      cases args with
      | nil => cases first
      | cons arg args =>
        obtain ⟨arg', here, first⟩ := bind_eq_ok_iff.1 first
        cases first
        obtain ⟨j, rfl, number⟩ := index_of_arg here
        exact ⟨j, .here, number⟩
    | other unvisited => cases unvisited
  | block inside _ ih =>
    cases replaces_of_instr replaced with
    | block inner =>
      obtain ⟨_, listed, first⟩ := exists_of_forall₂ (forall₂_of_body inner) inside
      obtain ⟨j, reads, number⟩ := ih first
      exact ⟨j, .block listed reads, number⟩
    | other unvisited => cases unvisited
  | loop inside _ ih =>
    cases replaces_of_instr replaced with
    | loop inner =>
      obtain ⟨_, listed, first⟩ := exists_of_forall₂ (forall₂_of_body inner) inside
      obtain ⟨j, reads, number⟩ := ih first
      exact ⟨j, .loop listed reads, number⟩
    | other unvisited => cases unvisited
  | consequent inside _ ih =>
    cases replaces_of_instr replaced with
    | ifElse whenTrue _ =>
      obtain ⟨_, listed, first⟩ := exists_of_forall₂ (forall₂_of_body whenTrue) inside
      obtain ⟨j, reads, number⟩ := ih first
      exact ⟨j, .consequent listed reads, number⟩
    | other unvisited => cases unvisited
  | alternate inside _ ih =>
    cases replaces_of_instr replaced with
    | ifElse _ whenFalse =>
      obtain ⟨_, listed, first⟩ := exists_of_forall₂ (forall₂_of_body whenFalse) inside
      obtain ⟨j, reads, number⟩ := ih first
      exact ⟨j, .alternate listed reads, number⟩
    | other unvisited => cases unvisited

/-- Indices are resolved from indices. -/
theorem index_of_indices {space : Space} {is js : List Index} {i : Index}
    (replaced : s.indices space js = .ok is) (inside : i ∈ is) :
    ∃ j ∈ js, s.index space j = .ok i := by
  induction js generalizing is with
  | nil =>
    obtain rfl := Except.ok.inj replaced
    cases inside
  | cons j js ih =>
    rw [indices, List.mapM_cons] at replaced
    obtain ⟨first, head, replaced⟩ := bind_eq_ok_iff.1 replaced
    obtain ⟨rest, tail, replaced⟩ := bind_eq_ok_iff.1 replaced
    obtain rfl := pure_eq_ok_iff.1 replaced
    obtain rfl | later := List.mem_cons.1 inside
    · exact ⟨j, List.mem_cons_self, head⟩
    · obtain ⟨other, listed, number⟩ := ih tail later
      exact ⟨other, List.mem_cons_of_mem _ listed, number⟩

theorem reads_of_body {nodes nodes' : List Node} {node' : Node} {i : Index}
    (replaced : s.body nodes = .ok nodes') (inside : node' ∈ nodes') (reads : node'.Reads i) :
    ∃ node ∈ nodes, ∃ j, node.Reads j ∧ s.index .global j = .ok i := by
  obtain ⟨node, listed, first⟩ := exists_of_forall₂ (forall₂_of_body replaced) inside
  exact ⟨node, listed, reads_of_instr reads first⟩

/-- A field refers to something after its names were replaced where it did before. -/
theorem refers_of_field {node node' : Node} {place : Place} {kind : ExportKind} {i : Index}
    (replaced : s.field node = .ok node') (refers : node'.Refers place kind i) :
    ∃ j, node.Refers place kind j ∧ s.index (exportSpace kind) j = .ok i := by
  cases replaces_of_field replaced with
  | moduleExport number =>
    cases refers
    exact ⟨_, .exported _, number⟩
  | start number =>
    cases refers
    exact ⟨_, .start _, number⟩
  | global inner =>
    cases refers with
    | initialiser inside reads =>
      obtain ⟨_, listed, j, reads, number⟩ := reads_of_body inner inside reads
      exact ⟨j, .initialiser listed reads, number⟩
  | table numbers =>
    cases refers with
    | element inside =>
      obtain ⟨j, listed, number⟩ := index_of_indices numbers inside
      exact ⟨j, .element listed, number⟩
  | elem table inner numbers =>
    cases refers with
    | elemTable => exact ⟨_, .elemTable .., table⟩
    | elemFunc inside =>
      obtain ⟨j, listed, number⟩ := index_of_indices numbers inside
      exact ⟨j, .elemFunc listed, number⟩
    | elemOffset inside reads =>
      obtain ⟨_, listed, j, reads, number⟩ := reads_of_body inner inside reads
      exact ⟨j, .elemOffset listed reads, number⟩
  | data memory inner =>
    cases refers with
    | dataMemory => exact ⟨_, .dataMemory .., memory⟩
    | dataOffset inside reads =>
      obtain ⟨_, listed, j, reads, number⟩ := reads_of_body inner inside reads
      exact ⟨j, .dataOffset listed reads, number⟩
  | func => cases refers
  | other unvisited => cases refers <;> cases unvisited

/-- A reference stays a number, or becomes the number of a name. -/
theorem number_of_index {space : Space} {i j : Index} (replaced : s.index space j = .ok i) :
    ∃ n, i.number? = some n ∧ (j = i ∨ ∃ id k, j = .identifier id ∧
      s.position? space id.value = some k ∧ n ≤ k) := by
  cases j with
  | number m =>
    cases replaced
    exact ⟨_, rfl, .inl rfl⟩
  | identifier id =>
    obtain ⟨n, number, replaced⟩ := bind_eq_ok_iff.1 replaced
    obtain rfl := pure_eq_ok_iff.1 replaced
    unfold Scope.number at number
    split at number
    · next k found =>
      cases number
      have small : (NumberLiteral.ofInt k).toU32 ≤ k := by
        simp only [NumberLiteral.toU32, NumberLiteral.ofInt, UInt32.size]
        omega
      exact ⟨_, rfl, .inr ⟨id, k, rfl, found, small⟩⟩
    · cases number

end Scope

/-! ## Modules -/

/-- There is a name, or none given, for each definition of a kind. -/
theorem length_names (fields : List Node) (kind : ExportKind) :
    ((Namespaces.ofFields fields).names (Scope.exportSpace kind)).length = definedIn kind fields := by
  induction fields with
  | nil => cases kind <;> rfl
  | cons field fields ih =>
    have one : ((Namespaces.ofField field).names (Scope.exportSpace kind)).length =
        if field.defines = some kind then 1 else 0 := by
      cases field with
      | moduleImport decl =>
        obtain ⟨m, name, descr, id⟩ := decl
        cases descr <;> cases kind <;> rfl
      | func | global | memory | table => cases kind <;> rfl
      | _ => cases kind <;> rfl
    have both : ((Namespaces.ofFields (field :: fields)).names (Scope.exportSpace kind)).length =
        ((Namespaces.ofField field).names (Scope.exportSpace kind)).length +
          ((Namespaces.ofFields fields).names (Scope.exportSpace kind)).length := by
      cases kind <;> exact List.length_append
    rw [both, one, ih, definedIn_cons]

/-- The names of a kind number what a module has of it. -/
theorem lt_of_position? {fields : List Node} (kind : ExportKind) {name : String} {n : Nat}
    {locals : List (Option String)} {labels : List String}
    (found : (⟨Namespaces.ofFields fields, locals, labels⟩ : Scope).position?
      (Scope.exportSpace kind) name = some n) : n < definedIn kind fields := by
  rw [← length_names]
  have here : positionOf? ((Namespaces.ofFields fields).names (Scope.exportSpace kind)) name =
      some n := by
    cases kind <;> exact found
  exact (List.findIdx?_eq_some_iff_getElem.1 here).1

/-- Resolving a module inlines signatures and then replaces names, field by field. -/
theorem Module.resolve_eq_ok {m m' : Module} (resolved : m.resolve = .ok m') :
    ∃ inlined, m.inlineTypes = .ok inlined ∧
      List.Forall₂ (fun f f' => TypeReference.inline (TypeReference.collectAll m.fields) f = .ok f')
        m.fields inlined.fields ∧
      List.Forall₂ (fun f f' => Scope.field ⟨Namespaces.ofFields inlined.fields, [], []⟩ f = .ok f')
        inlined.fields m'.fields := by
  obtain ⟨inlined, first, resolved⟩ := bind_eq_ok_iff.1 resolved
  have whole := first
  obtain ⟨fields, inner, first⟩ := bind_eq_ok_iff.1 first
  obtain rfl := pure_eq_ok_iff.1 first
  obtain ⟨fields', replaced, resolved⟩ := bind_eq_ok_iff.1 resolved
  obtain rfl := pure_eq_ok_iff.1 resolved
  exact ⟨_, whole, forall₂_of_inlineAll inner, forall₂_of_mapM replaced⟩

/-- Resolving keeps what a module has. -/
theorem Module.countOf_of_resolve {m m' : Module} (resolved : m.resolve = .ok m')
    (kind : ExportKind) : m'.countOf kind = m.countOf kind := by
  obtain ⟨inlined, -, inline, replace⟩ := resolve_eq_ok resolved
  have first := definedIn_of_forall₂ inline
    (fun _ _ same => (TypeReference.shape_of_inline same).2) kind
  have second := definedIn_of_forall₂ replace (fun _ _ same => (Scope.shape_of_field same).2) kind
  exact second.trans first

/-- A reference of a resolved module is a number: one that the source has in the same place, or one of
something that the module has. -/
theorem Module.refers_of_resolve {m m' : Module} (resolved : m.resolve = .ok m') {field' : Node}
    (listed : field' ∈ m'.fields) {place : Place} {kind : ExportKind} {i : Index}
    (refers : field'.Refers place kind i) : ∃ n, i.number? = some n ∧
      (n < m'.countOf kind ∨ ∃ field ∈ m.fields, field.Refers place kind i) := by
  have counts := countOf_of_resolve resolved kind
  obtain ⟨inlined, -, inline, replace⟩ := resolve_eq_ok resolved
  obtain ⟨field₁, listed₁, replaced⟩ := exists_of_forall₂ replace listed
  obtain ⟨j, refers₁, index⟩ := Scope.refers_of_field replaced refers
  obtain ⟨field₀, listed₀, inlines⟩ := exists_of_forall₂ inline listed₁
  obtain ⟨n, number, rfl | ⟨id, k, -, found, le⟩⟩ := Scope.number_of_index index
  · exact ⟨n, number, .inr ⟨field₀, listed₀, TypeReference.refers_of_inline inlines refers₁⟩⟩
  · have within := lt_of_position? kind found
    have same := definedIn_of_forall₂ inline
      (fun _ _ same => (TypeReference.shape_of_inline same).2) kind
    rw [same] at within
    refine ⟨n, number, .inl ?_⟩
    rw [counts]
    exact Nat.lt_of_le_of_lt le within

end WasmEngine
