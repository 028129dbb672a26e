import Mathlib
import WasmEngine.Proofs.Binary.RoundTrip
import WasmEngine.Proofs.Embedding.Compiled
import WasmEngine.Proofs.Syntax.Equality
import WasmEngine.Proofs.Syntax.References

/-!
# Ranges of indices

Validation checks the index of the start function and those that the initialisers of globals read.  The
other references outside of functions are in range where the source spells a name, and as the source
has them where it spells a number (`Program.index_of_compile`).
-/

namespace WasmEngine

open Node Outcome Typing

/-! ## Contexts -/

/-- How many functions, tables, memories or globals a context declares. -/
def ModuleContext.countOf (ctx : ModuleContext) : ExportKind → Nat
  | .func => ctx.funcs.length
  | .table => ctx.tables.length
  | .memory => ctx.mems.length
  | .global => ctx.globals.length

/-- A field counts towards the kind that it defines. -/
theorem ModuleContext.countOf_addField (ctx : ModuleContext) (field : Node) (kind : ExportKind) :
    (ctx.addField field).countOf kind =
      ctx.countOf kind + if field.defines = some kind then 1 else 0 := by
  cases field with
  | moduleImport decl =>
    obtain ⟨m, name, descr, id⟩ := decl
    cases descr <;> cases kind <;>
      simp [addField, addImport, addFunction, addGlobal, addMemory, addTable, countOf, defines]
  | func | global | memory | table =>
    cases kind <;> simp [addField, addFunction, addGlobal, addMemory, addTable, countOf, defines]
  | _ => cases kind <;> rfl

/-- A context declares what the module has. -/
theorem ModuleContext.countOf_ofModule (m : Module) (kind : ExportKind) :
    (ModuleContext.ofModule m).countOf kind = m.countOf kind := by
  have all (fields : List Node) (ctx : ModuleContext) :
      (fields.foldl addField ctx).countOf kind = ctx.countOf kind + definedIn kind fields := by
    induction fields generalizing ctx with
    | nil => rfl
    | cons field fields ih =>
      rw [List.foldl_cons, ih, countOf_addField, definedIn_cons, Nat.add_assoc]
  rw [ofModule, all, Module.countOf]
  cases kind <;> exact Nat.zero_add _

/-! ## What validation checks -/

/-- A checked start index is that of a function. -/
theorem Typing.number_of_checkStart {ctx : ModuleContext} {i : Index} (checked : checkStart ctx i = .ok ()) :
    ∃ n, i.number? = some n ∧ n < ctx.countOf .func := by
  unfold checkStart at checked
  split at checked
  · cases checked
  · next n number =>
    split at checked
    · cases checked
    · next type found => exact ⟨n, number, (List.getElem?_eq_some_iff.1 found).1⟩

/-- The rest of a constant expression is constant. -/
theorem Typing.constantTypes_of_cons {ctx : ModuleContext} {first : Node} {init : List Node}
    {ts : List Valtype} (passes : constantTypes ctx (first :: init) = .ok ts) :
    ∃ ts', constantTypes ctx init = .ok ts' := by
  cases first with
  | instr id object args memArg =>
    unfold constantTypes at passes
    cases object with
    | some t =>
      dsimp only at passes
      split_ifs at passes
      obtain ⟨rest, later, -⟩ := bind_eq_ok_iff.1 passes
      exact ⟨rest, later⟩
    | none =>
      dsimp only at passes
      split_ifs at passes
      · exact ⟨ts, passes⟩
      · split at passes
        · split at passes
          · obtain ⟨rest, later, -⟩ := bind_eq_ok_iff.1 passes
            exact ⟨rest, later⟩
          · cases passes
        · cases passes
  | _ => cases passes

theorem Typing.reads_of_constantTypes {ctx : ModuleContext} {init : List Node} {ts : List Valtype}
    (passes : constantTypes ctx init = .ok ts) {node : Node} (listed : node ∈ init) {i : Index}
    (reads : node.Reads i) : ∃ n, i.number? = some n ∧ n < ctx.countOf .global := by
  induction init generalizing ts with
  | nil => cases listed
  | cons first init ih =>
    obtain rfl | later := List.mem_cons.1 listed
    · cases reads with
      | here =>
        cases i with
        | number n =>
          cases found : ctx.global? n.toU32 with
          | some type => exact ⟨_, rfl, (List.getElem?_eq_some_iff.1 found).1⟩
          | none => simp [constantTypes, ofIndex, found] at passes
        | identifier id => simp [constantTypes, ofIndex] at passes
      | _ => cases passes
    · obtain ⟨ts', rest⟩ := constantTypes_of_cons passes
      exact ih rest later

/-- Whether validation checks the references of a place. -/
def Place.IsChecked (place : Place) : Prop := place = .start ∨ place = .initialiser

/-- A checked reference of a validated module is to a definition that exists. -/
theorem Module.refers_of_validate {m : Module} (passes : m.validate = .ok ()) {field : Node}
    (listed : field ∈ m.fields) {place : Place} {kind : ExportKind} {i : Index}
    (refers : field.Refers place kind i) (checked : place.IsChecked) :
    ∃ n, i.number? = some n ∧ n < m.countOf kind := by
  simp only [← ModuleContext.countOf_ofModule]
  cases refers with
  | start i =>
    have checked := (interface_of_validate passes).started i (List.mem_filterMap.2 ⟨_, listed, rfl⟩)
    exact number_of_checkStart checked
  | initialiser inside reads =>
    exact reads_of_constantTypes (initialiser_of_validate passes listed) inside reads
  | _ => obtain checked | checked := checked <;> cases checked

/-! ## Programs -/

/-- Every reference of a module that was compiled is the number of something that the module has, unless
the source spells that number in an export, a table or a segment. -/
theorem Program.index_of_compile {p q : Program} (compiled : p.compile = .ok q) {node' : Node}
    (listed : node' ∈ q.body) {m' : Module} (here : node'.module? = some m') :
    ∃ node ∈ p.body, ∃ m, node.module? = some m ∧ m.resolve = .ok m' ∧
      ∀ field' ∈ m'.fields, ∀ place kind i, field'.Refers place kind i →
        ∃ n, i.number? = some n ∧ (n < m'.countOf kind ∨
          ¬ place.IsChecked ∧ ∃ field ∈ m.fields, field.Refers place kind i) := by
  obtain ⟨node, inside, m, there, resolved, passes⟩ := Program.source_of_compile compiled listed here
  refine ⟨node, inside, m, there, resolved, fun field' member place kind i refers => ?_⟩
  by_cases checked : place.IsChecked
  · obtain ⟨n, number, lt⟩ := Module.refers_of_validate passes member refers checked
    exact ⟨n, number, .inl lt⟩
  · obtain ⟨n, number, lt | source⟩ := Module.refers_of_resolve resolved member refers
    · exact ⟨n, number, .inl lt⟩
    · exact ⟨n, number, .inr ⟨checked, source⟩⟩

/-- A module that names its function in an export and as its start function, and the global that it imports in an
initialiser.  Its second export spells a number. -/
def namesThree : Module where
  id := none
  fields := [.moduleImport ⟨"m", "g", .global ⟨.i32, .const⟩, some (.ofString "g")⟩,
    .func (.ofString "f") (.inline ⟨[], []⟩) [] [] none,
    .global ⟨.i32, .const⟩ [.instr "get_global" none [.identifier (.ofString "g")] none] none,
    .moduleExport ⟨"a", ⟨.func, .identifier (.ofString "f")⟩⟩, .moduleExport ⟨"b", ⟨.func, .number ⟨5, "5"⟩⟩⟩,
    .start (.identifier (.ofString "f"))]
  metadata := none

/-- The module with the numbers of what it names. -/
def numbersThree : Module where
  id := none
  fields := [.moduleImport ⟨"m", "g", .global ⟨.i32, .const⟩, some (.ofString "g")⟩,
    .func (.ofString "f") (.inline ⟨[], []⟩) [] [] none,
    .global ⟨.i32, .const⟩ [.instr "get_global" none [.number (.ofInt 0)] none] none,
    .moduleExport ⟨"a", ⟨.func, .ofNat 0⟩⟩, .moduleExport ⟨"b", ⟨.func, .number ⟨5, "5"⟩⟩⟩, .start (.ofNat 0)]
  metadata := none

/-- The export that spells a number which no function has is the one reference out of range. -/
theorem index_of_namesThree : numbersThree.countOf .func = 1 ∧ numbersThree.countOf .global = 2 ∧
    ∃ node ∈ [namesThree.toNode], ∃ m, node.module? = some m ∧ m.resolve = .ok numbersThree ∧
      ∀ field' ∈ numbersThree.fields, ∀ place kind i, field'.Refers place kind i →
        ∃ n, i.number? = some n ∧ (n < numbersThree.countOf kind ∨
          ¬ place.IsChecked ∧ ∃ field ∈ m.fields, field.Refers place kind i) := by
  have compiled : Program.compile ⟨[namesThree.toNode]⟩ = .ok ⟨[numbersThree.toNode]⟩ := by rfl
  exact ⟨rfl, rfl, Program.index_of_compile compiled (List.mem_singleton.2 rfl) rfl⟩

/-- A module that exports a function which it does not have. -/
def danglingExport : Module :=
  ⟨none, [.moduleExport ⟨"f", ⟨.func, .number ⟨5, "5"⟩⟩⟩], none⟩

/-- A text that spells the number of a function which its module does not have is accepted. -/
theorem not_index_of_compileSource : ¬ ∀ (source : String) (m : Module),
    Engine.compileSource source = .ok m → ∀ field ∈ m.fields, ∀ place kind i,
      field.Refers place kind i → ∃ n, i.number? = some n ∧ n < m.countOf kind := by
  intro all
  have parsed : Wat.parse "(module (export \"f\" (func 5)))" = .ok ⟨[danglingExport.toNode]⟩ := by decide +kernel
  have accepted : Engine.compileSource "(module (export \"f\" (func 5)))" = .ok danglingExport := by
    rw [Engine.compileSource, Engine.parse, parsed]
    rfl
  obtain ⟨n, number, lt⟩ := all _ _ accepted _ List.mem_cons_self _ _ _ (.exported _)
  cases number
  exact absurd lt (by decide)

/-! ## Decoded modules -/

namespace Binary

/-- Whether an entry that is no function of the module itself has a kind. -/
def Entry.fieldHasKind (kind : ExportKind) : Entry → Bool
  | func _ => false
  | x => x.hasKind kind

/-- The fields and signatures of the sections make up the index spaces. -/
theorem countOf_eq (kind : ExportKind) (es : List Entry) : countOf kind es =
    es.countP (Entry.fieldHasKind kind) + if kind = .func then (signaturesOf es).length else 0 := by
  induction es with
  | nil => cases kind <;> rfl
  | cons x es ih =>
    rw [countOf, List.countP_cons, ← countOf, ih, List.countP_cons]
    cases x with
    | func s =>
      have more : (signaturesOf (.func s :: es)).length = (signaturesOf es).length + 1 := rfl
      rw [more]
      cases kind with
      | func => rfl
      | _ => rfl
    | imported | type | table | memory | global | exported | start | elem | code | data =>
      exact Nat.add_right_comm ..

/-- There is a function for each signature. -/
theorem length_definitions (metadata : ModuleMetadata) {es : List Entry}
    (enough : (signaturesOf es).length ≤ (codeOf es).length) :
    (definitions metadata es).length = (signaturesOf es).length := by
  rw [definitions, List.length_zipWith, List.length_zipIdx, length_declarations, Nat.min_eq_left enough]

/-- A decoded module has what its entries bring in. -/
theorem countOf_moduleOf (metadata : ModuleMetadata) {es : List Entry}
    (enough : (signaturesOf es).length ≤ (codeOf es).length) (kind : ExportKind) :
    (moduleOf metadata es).countOf kind = countOf kind es := by
  have fields : definedIn kind (fieldsOf es) = es.countP (Entry.fieldHasKind kind) :=
    countP_numbered (fun k x => by
      cases x with
      | imported m name what => cases what <;> rfl
      | _ => rfl) 0 es
  have funcs : definedIn kind ((definitions metadata es).map Func.toNode) =
      if kind = .func then (signaturesOf es).length else 0 := by
    rw [definedIn, List.countP_map, ← length_definitions metadata enough]
    split_ifs with isFunc
    · subst isFunc
      exact List.countP_eq_length.2 fun f _ => rfl
    · exact List.countP_eq_zero.2 fun f _ same =>
        isFunc (Option.some.inj (beq_iff_eq.1 same)).symm
  have exports : definedIn kind (es.filterMap Entry.export?) = 0 := by
    refine List.countP_eq_zero.2 fun node inside => ?_
    obtain ⟨x, -, given⟩ := List.mem_filterMap.1 inside
    cases x with
    | exported =>
      cases given
      rintro ⟨⟩
    | _ => cases given
  show definedIn kind (fieldsOf es ++ (definitions metadata es).map Func.toNode ++
    es.filterMap Entry.export?) = _
  rw [definedIn, List.countP_append, List.countP_append, ← definedIn, ← definedIn, ← definedIn, fields,
    funcs, exports, Nat.add_zero, countOf_eq]

/-- The exports of a decoded module are numbers of something that the module has. -/
theorem exported_of_decode {bytes : List UInt8} {p : Program}
    (decodes : decode .default bytes = .ok p) {node : Node} (listed : node ∈ p.body) {m : Module}
    (here : node.module? = some m) {field : Node} (member : field ∈ m.fields) {kind : ExportKind}
    {i : Index} (refers : field.Refers .exported kind i) :
    ∃ n, i.number? = some n ∧ n < m.countOf kind := by
  obtain ⟨-, d, es, -, -, gathered, enough, rfl⟩ := gathered_of_decode decodes
  obtain rfl := List.mem_singleton.1 listed
  cases here
  cases refers with
  | exported e =>
    have exported : Node.moduleExport e ∈ es.filterMap Entry.export? := by
      have fields : Node.moduleExport e ∉ fieldsOf es := fun inside => by
        obtain ⟨k, x, -, given⟩ := mem_numbered inside
        cases x <;> cases given
      have funcs : Node.moduleExport e ∉ (definitions d.metadata es).map Func.toNode := fun inside => by
        obtain ⟨f, -, given⟩ := List.mem_map.1 inside
        cases given
      obtain inside | inside := List.mem_append.1 member
      · exact absurd (List.mem_append.1 inside) (not_or.2 ⟨fields, funcs⟩)
      · exact inside
    obtain ⟨x, inside, given⟩ := List.mem_filterMap.1 exported
    cases x with
    | exported name kind index =>
      cases given
      obtain ⟨fine, -⟩ := gathered.spelled d.types (List.prefix_refl _) gathered.anonymous
      have range := gathered.inRange _ inside
      refine ⟨index, ?_, ?_⟩
      · exact congrArg some (Decode.toU32_ofInt (fine _ inside).2)
      · exact (countOf_moduleOf d.metadata enough kind).symm ▸ range
    | _ => cases given

end Binary

/-- The exports of a module that was compiled from bytes are in range. -/
theorem Program.exported_of_compile_decode {bytes : List UInt8} {p q : Program}
    (decodes : Binary.decode .default bytes = .ok p) (compiled : p.compile = .ok q) {node' : Node}
    (listed : node' ∈ q.body) {m' : Module} (here : node'.module? = some m') {field' : Node}
    (member : field' ∈ m'.fields) {kind : ExportKind} {i : Index}
    (refers : field'.Refers .exported kind i) : ∃ n, i.number? = some n ∧ n < m'.countOf kind := by
  obtain ⟨node, inside, m, there, resolved, all⟩ := index_of_compile compiled listed here
  obtain ⟨n, number, lt | ⟨-, field, source, same⟩⟩ := all field' member _ _ _ refers
  · exact ⟨n, number, lt⟩
  · rw [Module.countOf_of_resolve resolved]
    exact Binary.exported_of_decode decodes inside there source same

end WasmEngine
