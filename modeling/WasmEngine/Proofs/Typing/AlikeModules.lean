import WasmEngine.Proofs.Syntax.Alike
import WasmEngine.Proofs.Typing.ImportOrder
import WasmEngine.Proofs.Typing.IndexRanges
import WasmEngine.Typing.Validate

/-!
# Checking modules that say the same

The checker looks neither at the names of labels and parameters nor at how literals are spelled.  A module
restates another one if its fields of each kind say the same in their order, with the elements inside of
tables as segments.  It is valid if the other one is (`validate_of_restates`).
-/

namespace WasmEngine

open Node

/-- Declarations of the same functions, globals, memories and tables. -/
structure ModuleContext.Agrees (ctx ctx' : ModuleContext) : Prop where
  funcs : ctx'.funcs = ctx.funcs
  globals : ctx'.globals = ctx.globals
  mems : ctx'.mems = ctx.mems
  tables : ctx'.tables = ctx.tables

/-- Functions of one type and with locals of the same types whose code does the same. -/
structure Func.Alike (f f' : Func) : Prop where
  signature : ∃ s s', f.signature = .inline s ∧ f'.signature = .inline s' ∧ s'.funcType = s.funcType
  locals : f'.locals.map Param.valtype = f.locals.map Param.valtype
  body : AlikeIn f.body f'.body

namespace Typing

theorem indexArg_respelledIn (instruction : String) (args : List Node) (position : Nat) :
    indexArg instruction (respelledIn args) position = indexArg instruction args position := by
  unfold indexArg
  rw [getElem?_respelledIn]
  cases args[position]? with
  | none => rfl
  | some node => cases node <;> rfl

variable {ctx ctx' : ModuleContext} {frame : FuncFrame} {stack : OperandStack}

/-- The context of an instruction in a function of another name. -/
abbrev renamedFrame (frame : FuncFrame) (name : String) : FuncFrame := { frame with name }

theorem checkTargets_respelledIn (name : String) (types : List Valtype) (args : List Node)
    (positions : List Nat) : checkTargets (renamedFrame frame name) types (respelledIn args) positions =
      checkTargets frame types args positions := by
  induction positions with
  | nil => rfl
  | cons position positions ih =>
    rw [checkTargets, checkTargets, indexArg_respelledIn, ih]
    rfl

theorem resolved_respelled (i : Index) : resolved i.respelled = resolved i := by
  cases i <;> rfl

section

variable (agrees : ctx.Agrees ctx')
include agrees

theorem requireMemory_agrees : requireMemory ctx' = requireMemory ctx := by
  rw [requireMemory, requireMemory, ModuleContext.memory?, ModuleContext.memory?, agrees.mems]

theorem global?_agrees (i : Nat) : ctx'.global? i = ctx.global? i := by
  rw [ModuleContext.global?, ModuleContext.global?, agrees.globals]

theorem func?_agrees (i : Nat) : ctx'.func? i = ctx.func? i := by
  rw [ModuleContext.func?, ModuleContext.func?, agrees.funcs]

theorem table?_agrees (i : Nat) : ctx'.table? i = ctx.table? i := by
  rw [ModuleContext.table?, ModuleContext.table?, agrees.tables]

/-- Modules that agree check numeric instructions alike. -/
theorem checkNumeric_agrees (t : Valtype) (id : String) :
    checkNumeric ctx' t id stack = checkNumeric ctx t id stack := by
  unfold checkNumeric
  rw [requireMemory_agrees agrees]

/-- Modules that agree check plain instructions alike. -/
theorem checkPlain_agrees (name id : String) (args : List Node) :
    checkPlain ctx' (renamedFrame frame name) id (respelledIn args) stack =
      checkPlain ctx frame id args stack := by
  have label (depth : Nat) : labelTypes (renamedFrame frame name) depth = labelTypes frame depth := rfl
  have local_ (i : Nat) : (renamedFrame frame name).local? i = frame.local? i := rfl
  unfold checkPlain
  simp only [indexArg_respelledIn, isEmpty_respelledIn, length_respelledIn, checkTargets_respelledIn,
    requireMemory_agrees agrees, global?_agrees agrees, label, local_]

end

mutual

/-- Modules that agree check instructions that are alike in the same way. -/
theorem checkInstruction_alike (agrees : ctx.Agrees ctx') (name : String) {node node' : Node} (alike : node.Alike node')
    (frame : FuncFrame) (stack : OperandStack) :
    checkInstruction ctx' (renamedFrame frame name) stack node' = checkInstruction ctx frame stack node := by
  cases alike with
  | instr id object args memArg =>
    cases object with
    | some t =>
      rw [checkInstruction, checkInstruction]
      exact checkNumeric_agrees agrees t id
    | none =>
      rw [checkInstruction, checkInstruction]
      exact checkPlain_agrees agrees name id args
  | @block _ _ _ _ result inside =>
    have same := checkSequence_alike agrees name inside (frame.addLabel result.toList) .empty
    rw [checkInstruction, checkInstruction, ← same]
    rfl
  | loop inside =>
    have same := checkSequence_alike agrees name inside (frame.addLabel []) .empty
    rw [checkInstruction, checkInstruction, ← same]
    rfl
  | @ifElse _ _ _ _ _ _ result whenTrue whenFalse =>
    have same := checkSequence_alike agrees name whenTrue (frame.addLabel result.toList) .empty
    have same' := checkSequence_alike agrees name whenFalse (frame.addLabel result.toList) .empty
    rw [checkInstruction, checkInstruction, ← same, ← same']
    rfl
  | call i =>
    rw [checkInstruction, checkInstruction, resolved_respelled]
    simp only [func?_agrees agrees]
  | @callIndirect s s' type =>
    rw [checkInstruction, checkInstruction, table?_agrees agrees, ModuleContext.funcType,
      ModuleContext.funcType, type]

/-- Modules that agree check sequences that are alike in the same way. -/
theorem checkSequence_alike (agrees : ctx.Agrees ctx') (name : String) {nodes nodes' : List Node} (alike : AlikeIn nodes nodes')
    (frame : FuncFrame) (stack : OperandStack) :
    checkSequence ctx' (renamedFrame frame name) stack nodes' = checkSequence ctx frame stack nodes := by
  cases alike with
  | nil =>
    rw [checkSequence, checkSequence]
  | cons first rest =>
    rw [checkSequence, checkSequence, checkInstruction_alike agrees name first frame stack]
    exact congrArg _ (funext fun stack => checkSequence_alike agrees name rest frame stack)

end

/-- Functions that do the same pass the checker alike. -/
theorem checkFunction_alike (agrees : ctx.Agrees ctx') {f f' : Func} (alike : f.Alike f') :
    checkFunction ctx' f' = checkFunction ctx f := by
  obtain ⟨s, s', here, there, type⟩ := alike.signature
  have same : ctx'.funcType f'.signature = ctx.funcType f.signature := by
    rw [here, there, ModuleContext.funcType, ModuleContext.funcType, type]
  have frame : bodyFrame ctx' f' = renamedFrame (bodyFrame ctx f) f'.name.value := by
    rw [bodyFrame, bodyFrame, same, alike.locals]
    rfl
  rw [checkFunction, checkFunction, frame, checkSequence_alike agrees f'.name.value alike.body, same]

end Typing

open Outcome Typing Binary Binary.Encode

/-! ## Modules that say the same -/

namespace Binary

/-- Element segments that put the same functions in the same place. -/
structure ElemAlike (e e' : Index × List Node × List Index) : Prop where
  target : e'.1 = e.1.respelled
  offset : AlikeIn e.2.1 e'.2.1
  funcs : e'.2.2 = e.2.2.map Index.respelled

/-- Data segments that put the same bytes in the same place. -/
structure DataAlike (d d' : Index × List Node × List UInt8) : Prop where
  target : d'.1 = d.1.respelled
  offset : AlikeIn d.2.1 d'.2.1
  init : d'.2.2 = d.2.2

end Binary

/-- A module says the same as another one, with its imports before its definitions and the elements inside of
tables as segments. -/
structure Module.Restates (m m' : Module) : Prop where
  imports : List.Forall₂ ImportReads (Fields.ofModule m).imports (Fields.ofModule m').imports
  funcs : List.Forall₂ Func.Alike (Fields.ofModule m).funcs (Fields.ofModule m').funcs
  tables : List.Forall₂ (fun t t' => t'.limits = t.limits) (Fields.ofModule m).tables
    (Fields.ofModule m').tables
  memories : List.Forall₂ (fun d d' => d'.limits = d.limits) (Fields.ofModule m).memories
    (Fields.ofModule m').memories
  globals : List.Forall₂ (fun g g' => g'.1 = g.1 ∧ AlikeIn g.2 g'.2) (Fields.ofModule m).globals
    (Fields.ofModule m').globals
  exports : (Fields.ofModule m').exports = (Fields.ofModule m).exports.map respelledExport
  starts : (Fields.ofModule m').starts = (Fields.ofModule m).starts.map Index.respelled
  elems : List.Forall₂ ElemAlike (Fields.ofModule m).segments (Fields.ofModule m').elems
  data : List.Forall₂ DataAlike (Fields.ofModule m).data (Fields.ofModule m').data
  unfilled : ∀ t ∈ (Fields.ofModule m').tables, t.elements = []
  inOrder : lateImports false m'.fields = []

/-- Definitions of the same. -/
inductive Definition.Alike : Definition → Definition → Prop
  | imported {decl decl' : ModuleImport} (reads : ImportReads decl decl') :
    Definition.Alike (.imported decl) (.imported decl')
  | func {f f' : Func} (alike : f.Alike f') : Definition.Alike (.func f) (.func f')
  | table {t t' : TableDef} (limits : t'.limits = t.limits) : Definition.Alike (.table t) (.table t')
  | memory {d d' : MemoryDef} (limits : d'.limits = d.limits) : Definition.Alike (.memory d) (.memory d')
  | global (type : GlobalType) {init init' : List Node} (alike : AlikeIn init init') :
    Definition.Alike (.global type init) (.global type init')

/-- What imports of the same bring in. -/
inductive ImportDescr.Alike : ImportDescr → ImportDescr → Prop
  | func {d d' : FuncImport} (signature : SignatureReads d.signature d'.signature) :
    ImportDescr.Alike (.func d) (.func d')
  | table {t t' : TableDef} (limits : t'.limits = t.limits) : ImportDescr.Alike (.table t) (.table t')
  | memory {d d' : MemoryDef} (limits : d'.limits = d.limits) : ImportDescr.Alike (.memory d) (.memory d')
  | global (type : GlobalType) : ImportDescr.Alike (.global type) (.global type)

/-- What an import is read back as is alike. -/
theorem Binary.ImportReads.alike {decl decl' : ModuleImport} (reads : ImportReads decl decl') :
    decl.descr.Alike decl'.descr :=
  match decl.descr, decl'.descr, reads.descr with
  | .func _, .func _, same => .func same.1
  | .table _, .table _, same => .table same
  | .memory _, .memory _, same => .memory same
  | .global type, .global _, same => same ▸ .global type

theorem Binary.ImportReads.self {decl decl' : ModuleImport} (reads : ImportReads decl decl') :
    ImportReads decl' decl' := by
  obtain ⟨-, name, descr⟩ := reads
  refine ⟨rfl, rfl, ?_⟩
  revert descr
  generalize decl'.descr = after
  cases decl.descr <;> cases after <;> intro descr
  case func.func =>
    obtain ⟨⟨_, s, -, here, -⟩, id⟩ := descr
    exact ⟨⟨s, s, here, here, rfl⟩, name ▸ id⟩
  all_goals first | exact descr.elim | exact rfl

theorem ImportDescr.Alike.kind_eq {descr descr' : ImportDescr} (alike : descr.Alike descr') :
    descr'.kind = descr.kind := by
  cases alike <;> rfl

theorem Definition.Alike.kind_eq {d d' : Definition} (alike : d.Alike d') : d'.kind = d.kind := by
  cases alike with
  | imported reads => exact reads.alike.kind_eq
  | _ => rfl

/-- Modules that say the same define the same. -/
theorem Module.Restates.defined {m m' : Module} (restates : m.Restates m') (kind : ExportKind) :
    List.Forall₂ Definition.Alike ((Fields.ofModule m).defined kind) ((Fields.ofModule m').defined kind) := by
  cases kind with
  | func => exact List.rel_map (fun _ _ => .func) restates.funcs
  | table => exact List.rel_map (fun _ _ => .table) restates.tables
  | memory => exact List.rel_map (fun _ _ => .memory) restates.memories
  | global =>
    refine List.rel_map (fun g g' same => ?_) restates.globals
    rw [same.1]
    exact .global g.1 same.2

/-- The definitions of each kind are in the same order, whether they are grouped or not. -/
theorem Module.Restates.definitions {m m' : Module} (restates : m.Restates m')
    (inOrder : lateImports false m.fields = []) (kind : ExportKind) :
    List.Forall₂ Definition.Alike (definitionsOf kind m.fields) (definitionsOf kind m'.fields) := by
  rw [definitionsOf_eq_space kind m.id m.metadata inOrder,
    definitionsOf_eq_space kind m'.id m'.metadata restates.inOrder]
  refine List.rel_append (List.rel_filter (R := Definition.Alike) ?_ ?_) (restates.defined kind)
  · intro d d' alike
    simp only [alike.kind_eq]
  · exact List.rel_map (fun _ _ => .imported) restates.imports

/-! ## Contexts -/

namespace Definition

/-- The type of a function. -/
def funcType : Definition → FuncType
  | imported decl =>
    match decl.descr with
    | .func d => ModuleContext.empty.funcType d.signature
    | _ => ⟨[], []⟩
  | func f => ModuleContext.empty.funcType f.signature
  | _ => ⟨[], []⟩

/-- The type of a global. -/
def globalType : Definition → GlobalType
  | imported decl =>
    match decl.descr with
    | .global type => type
    | _ => ⟨.i32, .const⟩
  | global type _ => type
  | _ => ⟨.i32, .const⟩

/-- The limits of a memory or table. -/
def limits : Definition → Limits
  | imported decl =>
    match decl.descr with
    | .memory d => d.limits
    | .table t => t.limits
    | _ => ⟨0, none⟩
  | memory d => d.limits
  | table t => t.limits
  | _ => ⟨0, none⟩

/-- A function has its signature in place. -/
def HasSignature : Definition → Prop
  | imported decl =>
    match decl.descr with
    | .func d => d.signature.IsInline
    | _ => True
  | func f => f.signature.IsInline
  | _ => True

namespace Alike

variable {d d' : Definition} (alike : d.Alike d')
include alike

theorem hasSignature : d.HasSignature ∧ d'.HasSignature := by
  cases alike with
  | @imported decl decl' reads =>
    have same := reads.alike
    simp only [HasSignature]
    generalize decl.descr = descr at same ⊢
    generalize decl'.descr = descr' at same ⊢
    cases same with
    | func signature =>
      obtain ⟨s, s', here, there, -⟩ := signature
      exact ⟨⟨s, here⟩, ⟨s', there⟩⟩
    | _ => exact ⟨trivial, trivial⟩
  | func alike =>
    obtain ⟨s, s', here, there, -⟩ := alike.signature
    exact ⟨⟨s, here⟩, ⟨s', there⟩⟩
  | _ => exact ⟨trivial, trivial⟩

/-- Definitions of the same declare the same. -/
theorem declares : d'.funcType = d.funcType ∧ d'.globalType = d.globalType ∧ d'.limits = d.limits := by
  cases alike with
  | @imported decl decl' reads =>
    have same := reads.alike
    simp only [funcType, globalType, limits]
    generalize decl.descr = descr at same ⊢
    generalize decl'.descr = descr' at same ⊢
    cases same with
    | func signature =>
      obtain ⟨s, s', here, there, type⟩ := signature
      simp only [here, there, ModuleContext.funcType, type, and_self]
    | table limits => exact ⟨rfl, rfl, limits⟩
    | memory limits => exact ⟨rfl, rfl, limits⟩
    | global type => exact ⟨rfl, rfl, rfl⟩
  | func alike =>
    obtain ⟨s, s', here, there, type⟩ := alike.signature
    simp only [funcType, globalType, limits, here, there, ModuleContext.funcType, type, and_self]
  | table limits => exact ⟨rfl, rfl, limits⟩
  | memory limits => exact ⟨rfl, rfl, limits⟩
  | global type => exact ⟨rfl, rfl, rfl⟩

end Alike

end Definition

/-- A context declares some definitions, in their order. -/
structure ModuleContext.Declares (ctx : ModuleContext) (ds : List Definition) : Prop where
  funcs : ctx.funcs = (ds.filter (·.kind == .func)).map Definition.funcType
  globals : ctx.globals = (ds.filter (·.kind == .global)).map Definition.globalType
  mems : ctx.mems = (ds.filter (·.kind == .memory)).map Definition.limits
  tables : ctx.tables = (ds.filter (·.kind == .table)).map Definition.limits

namespace ModuleContext

variable {ctx : ModuleContext} {ds : List Definition} {field : Node}

/-- A field that is added declares its definition. -/
theorem Declares.addField (declares : ctx.Declares ds)
    (signature : ∀ d, field.definition? = some d → d.HasSignature) :
    (ctx.addField field).Declares (ds ++ field.definition?.toList) := by
  obtain ⟨funcs, globals, mems, tables⟩ := declares
  cases field with
  | moduleImport decl =>
    have inline := signature _ rfl
    obtain ⟨module, name, descr, id⟩ := decl
    cases descr with
    | func d =>
      have type : ctx.funcType d.signature = empty.funcType d.signature := funcType_of_isInline inline
      constructor <;> simp [ModuleContext.addField, addImport, addFunction, Node.definition?, Definition.kind,
        ImportDescr.kind, Definition.funcType, *]
    | _ =>
      constructor <;> simp [ModuleContext.addField, addImport, addGlobal, addMemory, addTable, Node.definition?,
        Definition.kind, ImportDescr.kind, Definition.globalType, Definition.limits, *]
  | func name sig locals body metadata =>
    have type : ctx.funcType sig = empty.funcType sig := funcType_of_isInline (signature _ rfl)
    constructor <;> simp [ModuleContext.addField, addFunction, Node.definition?, Definition.kind,
      Definition.funcType, *]
  | global | memory | table =>
    constructor <;> simp [ModuleContext.addField, addGlobal, addMemory, addTable, Node.definition?,
      Definition.kind, Definition.globalType, Definition.limits, *]
  | _ =>
    change Declares _ (ds ++ [])
    rw [List.append_nil]
    exact ⟨funcs, globals, mems, tables⟩

/-- Fields that are added declare their definitions, in order. -/
theorem Declares.addFields {fields : List Node} (declares : ctx.Declares ds)
    (signatures : ∀ d ∈ fields.filterMap Node.definition?, d.HasSignature) :
    (fields.foldl ModuleContext.addField ctx).Declares (ds ++ fields.filterMap Node.definition?) := by
  induction fields generalizing ctx ds with
  | nil => simpa using declares
  | cons field fields ih =>
    have split : (field :: fields).filterMap Node.definition? =
        field.definition?.toList ++ fields.filterMap Node.definition? := by
      rw [List.filterMap_cons]
      cases field.definition? <;> rfl
    rw [split] at signatures ⊢
    obtain ⟨first, rest⟩ := List.forall_mem_append.1 signatures
    rw [List.foldl_cons, ← List.append_assoc]
    exact ih (declares.addField fun d here => first d (by simp [here])) rest

/-- A module declares what its fields define. -/
theorem declares_ofModule {m : Module} (signatures : ∀ d ∈ m.fields.filterMap Node.definition?, d.HasSignature) :
    (ofModule m).Declares (m.fields.filterMap Node.definition?) :=
  Declares.addFields (show empty.Declares [] from ⟨rfl, rfl, rfl, rfl⟩) signatures

/-- Modules with the same definitions of each kind declare the same. -/
theorem agrees_of_definitions {m m' : Module} (each : ∀ kind,
    List.Forall₂ Definition.Alike (definitionsOf kind m.fields) (definitionsOf kind m'.fields)) :
    (ofModule m).Agrees (ofModule m') := by
  have here : (ofModule m).Declares (m.fields.filterMap Node.definition?) := by
    refine declares_ofModule fun d listed => ?_
    obtain ⟨d', -, alike⟩ := exists_of_forall₂ (each d.kind).flip
      (List.mem_filter.2 ⟨listed, beq_self_eq_true d.kind⟩)
    exact alike.hasSignature.1
  have there : (ofModule m').Declares (m'.fields.filterMap Node.definition?) := by
    refine declares_ofModule fun d listed => ?_
    obtain ⟨d', -, alike⟩ := exists_of_forall₂ (each d.kind)
      (List.mem_filter.2 ⟨listed, beq_self_eq_true d.kind⟩)
    exact alike.hasSignature.2
  have same {α : Type} (f : Definition → α) (declares : ∀ d d', d.Alike d' → f d = f d') (kind : ExportKind) :
      (definitionsOf kind m'.fields).map f = (definitionsOf kind m.fields).map f :=
    (List.forall₂_eq_eq_eq ▸ List.rel_map (fun d d' => declares d d') (each kind)).symm
  exact ⟨there.funcs.trans ((same _ (fun _ _ alike => alike.declares.1.symm) .func).trans here.funcs.symm),
    there.globals.trans ((same _ (fun _ _ alike => alike.declares.2.1.symm) .global).trans here.globals.symm),
    there.mems.trans ((same _ (fun _ _ alike => alike.declares.2.2.symm) .memory).trans here.mems.symm),
    there.tables.trans ((same _ (fun _ _ alike => alike.declares.2.2.symm) .table).trans here.tables.symm)⟩

end ModuleContext

/-! ## Validation -/

namespace Typing

variable {ctx ctx' : ModuleContext}

section

variable (agrees : ctx.Agrees ctx')
include agrees

/-- Initialisers that are alike leave the same types. -/
theorem constantTypes_alike {init init' : List Node} (alike : AlikeIn init init') :
    constantTypes ctx' init' = constantTypes ctx init := by
  induction init generalizing init' with
  | nil =>
    cases alike
    rfl
  | cons node rest ih =>
    obtain _ | ⟨first, others⟩ := alike
    cases first with
    | instr id object args memArg =>
      unfold constantTypes
      rw [ih others]
      cases object with
      | some t => rfl
      | none =>
        dsimp only
        rw [head?_respelledIn]
        cases args.head? with
        | none => rfl
        | some literal =>
          have same (n : Nat) := global?_agrees agrees n
          cases literal with
          | number n => simp only [Option.map_some, respelled, same]; rfl
          | _ => rfl
    | _ => rfl

/-- Initialisers that are alike are checked the same. -/
theorem checkInitialiser_alike (type : GlobalType) {init init' : List Node} (alike : AlikeIn init init') :
    checkInitialiser ctx' type init' = checkInitialiser ctx type init := by
  rw [checkInitialiser, checkInitialiser, constantTypes_alike agrees alike]

/-- The start function is checked by its index alone. -/
theorem checkStart_respelled (index : Index) : checkStart ctx' index.respelled = checkStart ctx index := by
  cases index with
  | number n =>
    show checkStart ctx' (.number n.respelled) = _
    simp only [checkStart, Index.number?, func?_agrees agrees]
    rfl
  | identifier id => rfl

/-- Functions that are alike pass alike. -/
theorem checkFunctions_alike {m m' : Module}
    (funcs : List.Forall₂ Func.Alike (Fields.ofModule m).funcs (Fields.ofModule m').funcs)
    (passes : checkFunctions ctx m = []) : checkFunctions ctx' m' = [] := by
  refine List.filterMap_eq_nil_iff.2 fun f' inside => ?_
  obtain ⟨f, listed, alike⟩ := exists_of_forall₂ funcs inside
  rw [checkFunction_alike agrees alike]
  exact List.filterMap_eq_nil_iff.1 passes f listed

end

end Typing

namespace Module

/-- A module that says the same as a valid one is valid. -/
theorem validate_of_restates {m m' : Module} (restates : m.Restates m') (valid : m.validate = .ok ()) :
    m'.validate = .ok () := by
  obtain ⟨inOrder, funcs, constants, -⟩ := validate_eq_ok_iff.1 valid
  have agrees := ModuleContext.agrees_of_definitions (restates.definitions inOrder)
  refine validate_eq_ok_iff.2 ⟨restates.inOrder, checkFunctions_alike agrees restates.funcs funcs, ?_, ?_⟩
  · refine checkInitialisers_eq_ok_iff.2 fun g' inside => ?_
    obtain ⟨g, listed, type, alike⟩ := exists_of_forall₂ restates.globals inside
    rw [type, checkInitialiser_alike agrees g.1 alike]
    exact checkInitialisers_eq_ok_iff.1 constants g listed
  · obtain ⟨const, distinct, fixed, single, starts⟩ :=
      interface_of_validate valid
    refine (checkInterface_eq_ok_iff m'.id m'.metadata .nil).2 ⟨fun decl' inside t same => ?_, ?_, ?_, ?_, ?_⟩
    · obtain ⟨decl, listed, reads⟩ := exists_of_forall₂ restates.imports inside
      have alike := reads.alike
      rw [same] at alike
      refine const decl listed t ?_
      generalize decl.descr = descr at alike
      cases alike
      rfl
    · show (((Fields.ofModule m').exports.map ModuleExport.name) ++ []).Nodup
      rw [restates.exports, List.map_map]
      exact distinct
    · show ∀ e ∈ (Fields.ofModule m').exports, _
      rw [restates.exports]
      refine List.forall_mem_map.2 fun e listed changes => fixed e listed ?_
      have mutable : (ModuleContext.ofModule m').isMutable = (ModuleContext.ofModule m).isMutable := by
        funext n
        rw [ModuleContext.isMutable, global?_agrees agrees, ModuleContext.isMutable]
      rwa [respelledExport, Index.number?_respelled, mutable] at changes
    · show (Fields.ofModule m').starts.length ≤ _
      rw [restates.starts, List.length_map]
      exact single
    · show ∀ i ∈ (Fields.ofModule m').starts, _
      rw [restates.starts]
      refine List.forall_mem_map.2 fun i listed => ?_
      rw [checkStart_respelled agrees]
      exact starts i listed

end Module

end WasmEngine
