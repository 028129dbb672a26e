import WasmEngine.Binary.Encode
import WasmEngine.Proofs.Embedding.Compiled

/-!
# The order of definitions

Functions, tables, memories and globals are numbered in the order of the fields.  A valid module has its
imports before its definitions, so that the imports of a kind come first in each space, as they do where the
fields are grouped by section (`definitionsOf_eq_space`).
-/

namespace WasmEngine

/-- What has an index: what an import brings in, or what a field defines. -/
inductive Definition where
  | imported (decl : ModuleImport)
  | func (f : Func)
  | table (t : TableDef)
  | memory (d : MemoryDef)
  | global (type : GlobalType) (init : List Node)

/-- The kind of what an import brings in. -/
def ImportDescr.kind : ImportDescr → ExportKind
  | .func _ => .func
  | .table _ => .table
  | .memory _ => .memory
  | .global _ => .global

/-- The kind of a definition. -/
def Definition.kind : Definition → ExportKind
  | imported decl => decl.descr.kind
  | func _ => .func
  | table _ => .table
  | memory _ => .memory
  | global _ _ => .global

/-- What a field defines. -/
def Node.definition? : Node → Option Definition
  | .moduleImport decl => some (.imported decl)
  | .func name sig locals body metadata => some (.func ⟨name, sig, locals, body, metadata⟩)
  | .table t => some (.table t)
  | .memory d => some (.memory d)
  | .global type init _ => some (.global type init)
  | _ => none

/-- The definitions of a kind among fields, in the order of the fields. -/
def definitionsOf (kind : ExportKind) (fields : List Node) : List Definition :=
  (fields.filterMap Node.definition?).filter (·.kind == kind)

namespace Binary.Encode.Fields

/-- The definitions of a kind that are no imports. -/
def defined (f : Fields) : ExportKind → List Definition
  | .func => f.funcs.map .func
  | .table => f.tables.map .table
  | .memory => f.memories.map .memory
  | .global => f.globals.map fun g => .global g.1 g.2

/-- The index space of a kind: its imports, and then its definitions. -/
def space (f : Fields) (kind : ExportKind) : List Definition :=
  (f.imports.map .imported).filter (·.kind == kind) ++ f.defined kind

end Binary.Encode.Fields

open Binary.Encode Typing

theorem definitionsOf_cons (kind : ExportKind) (field : Node) (fields : List Node) :
    definitionsOf kind (field :: fields) =
      field.definition?.toList.filter (·.kind == kind) ++ definitionsOf kind fields := by
  rw [definitionsOf, List.filterMap_cons, definitionsOf]
  cases field.definition? with
  | none => rfl
  | some d =>
    rw [Option.toList_some, ← List.filter_append]
    rfl

/-- The definitions of two lists of fields follow each other. -/
theorem definitionsOf_append (kind : ExportKind) (first last : List Node) :
    definitionsOf kind (first ++ last) = definitionsOf kind first ++ definitionsOf kind last := by
  rw [definitionsOf, List.filterMap_append, List.filter_append, ← definitionsOf, ← definitionsOf]

section

variable {fields : List Node} (kind : ExportKind) (id : Option String) (metadata : Option ModuleMetadata)

/-- After a definition there are no more imports. -/
theorem definitionsOf_of_defined (inOrder : lateImports true fields = []) :
    (Fields.ofModule ⟨id, fields, metadata⟩).imports = [] ∧
      definitionsOf kind fields = (Fields.ofModule ⟨id, fields, metadata⟩).defined kind := by
  induction fields with
  | nil => cases kind <;> exact ⟨rfl, rfl⟩
  | cons field fields ih =>
    rw [definitionsOf_cons]
    cases field with
    | moduleImport decl => cases inOrder
    | func | table | memory | global =>
      obtain ⟨none, same⟩ := ih inOrder
      rw [same]
      exact ⟨none, by cases kind <;> rfl⟩
    | _ => exact ih inOrder

/-- Where imports come first, none stands behind a definition. -/
theorem not_import_of_defined (inOrder : lateImports true fields = []) (decl : ModuleImport) :
    .moduleImport decl ∉ fields := by
  induction fields with
  | nil => exact List.not_mem_nil
  | cons field fields ih =>
    intro listed
    cases field with
    | moduleImport => cases inOrder
    | _ =>
      rcases List.mem_cons.1 listed with here | later
      · cases here
      · exact ih inOrder later

/-- Where no import stands after a definition, the fields that import come before those that define. -/
theorem exists_split (inOrder : lateImports false fields = []) : ∃ first last, fields = first ++ last ∧
    first.filterMap Node.definition? = (Fields.ofModule ⟨id, fields, metadata⟩).imports.map .imported ∧
    (∀ decl, .moduleImport decl ∉ last) ∧
    ∀ kind, definitionsOf kind last = (Fields.ofModule ⟨id, fields, metadata⟩).defined kind := by
  induction fields with
  | nil => exact ⟨[], [], rfl, rfl, fun _ => List.not_mem_nil, fun kind => by cases kind <;> rfl⟩
  | cons field fields ih =>
    cases field with
    | moduleImport decl =>
      obtain ⟨first, last, rfl, imports, none, defined⟩ := ih inOrder
      refine ⟨.moduleImport decl :: first, last, rfl, ?_, none, fun kind => (defined kind).trans ?_⟩
      · exact congrArg (Definition.imported decl :: ·) imports
      · cases kind <;> rfl
    | func | table | memory | global =>
      -- The rest has no imports.
      have none := (definitionsOf_of_defined .func id metadata inOrder).1
      refine ⟨[], _, rfl, ?_, fun decl listed => ?_, fun kind => ?_⟩
      · exact (congrArg (List.map Definition.imported) none).symm
      · rcases List.mem_cons.1 listed with here | later
        · cases here
        · exact not_import_of_defined inOrder decl later
      · rw [definitionsOf_cons, (definitionsOf_of_defined kind id metadata inOrder).2]
        cases kind <;> rfl
    | _ =>
      obtain ⟨first, last, rfl, imports, none, defined⟩ := ih inOrder
      exact ⟨_ :: first, last, rfl, imports, none, fun kind => (defined kind).trans (by cases kind <;> rfl)⟩

/-- Where no import stands after a definition, the fields are in the order of the index spaces. -/
theorem definitionsOf_eq_space (inOrder : lateImports false fields = []) :
    definitionsOf kind fields = (Fields.ofModule ⟨id, fields, metadata⟩).space kind := by
  obtain ⟨first, last, same, imports, -, defined⟩ := exists_split id metadata inOrder
  rw [Fields.space, ← imports, ← defined, ← definitionsOf, ← definitionsOf_append, same]

end

/-- The type of a signature in place is the same in every context. -/
theorem ModuleContext.funcType_of_isInline {ctx ctx' : ModuleContext} {sig : SignatureRef}
    (inline : sig.IsInline) : ctx.funcType sig = ctx'.funcType sig := by
  obtain ⟨s, rfl⟩ := inline
  rfl

namespace Module

variable {m : Module}

/-- The definitions of a validated module are in the order of its index spaces. -/
theorem space_of_validate (passes : m.validate = .ok ()) (kind : ExportKind) :
    definitionsOf kind m.fields = (Fields.ofModule m).space kind :=
  definitionsOf_eq_space kind m.id m.metadata
    (validate_eq_ok_iff.1 passes).1

end Module

end WasmEngine
