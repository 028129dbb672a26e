import WasmEngine.Proofs.Syntax.Encodable
import WasmEngine.Proofs.Syntax.Walks

/-!
# Nested constructs

How many blocks, loops and conditionals a place of a tree is inside of.  A bound on the nesting of a node
(`Nests`) is one on all places below it (`Nests.openConstructs_le`).
-/

namespace WasmEngine

open Node

/-- A block, a loop or a conditional. -/
def Node.isConstruct : Node → Bool
  | block .. | loop .. | ifElse .. => true
  | _ => false

/-- How many constructs a place is inside of. -/
def NodePlace.openConstructs (place : NodePlace) : Nat := place.ancestors.countP isConstruct

namespace Node

/-- Nothing in a node is inside more constructs of it than there is room for. -/
inductive Nests : Nat → Node → Prop
  | construct {room : Nat} {node : Node} (opens : node.isConstruct = true)
    (inside : ∀ child ∈ node.children, Nests room child.node) : Nests (room + 1) node
  | other {room : Nat} {node : Node} (plain : node.isConstruct = false)
    (inside : ∀ child ∈ node.children, Nests room child.node) : Nests room node

/-- What nests in some room nests in more. -/
theorem Nests.mono {room room' : Nat} {node : Node} (nests : Nests room node) (le : room ≤ room') :
    Nests room' node := by
  induction nests generalizing room' with
  | construct opens _ ih =>
    obtain ⟨more, rfl⟩ : ∃ more, room' = more + 1 := ⟨room' - 1, by omega⟩
    exact .construct opens fun child below => ih child below (by omega)
  | other plain _ ih => exact .other plain fun child below => ih child below le

/-- What is below a node is inside of no more constructs than the node and its room allow. -/
theorem Nests.openConstructs_le {room : Nat} {node : Node} (nests : Nests room node)
    {ancestors : List Node} {inList : Bool} {place : NodePlace}
    (below : place ∈ node.placesBelow ancestors inList) :
    place.openConstructs ≤ ancestors.countP isConstruct + room := by
  induction nests generalizing ancestors inList with
  | construct opens _ ih =>
    rw [placesBelow_eq, List.mem_cons, List.mem_flatMap] at below
    rcases below with rfl | ⟨child, mem, below⟩
    · exact Nat.le_add_right _ _
    · have bound := ih child mem below
      rw [List.countP_cons_of_pos opens] at bound
      omega
  | other plain _ ih =>
    rw [placesBelow_eq, List.mem_cons, List.mem_flatMap] at below
    rcases below with rfl | ⟨child, mem, below⟩
    · exact Nat.le_add_right _ _
    · have bound := ih child mem below
      rwa [List.countP_cons_of_neg (by simp [plain])] at bound

/-! ## Small nodes -/

/-- Children in a row with room for some constructs. -/
def NestIn (room : Nat) (l : List Child) : Prop := ∀ child ∈ l, Nests room child.node

section Children

variable {room : Nat}

theorem nestIn_nil : NestIn room [] := nofun

/-- Children that nest, in sequence, nest. -/
theorem NestIn.append {l l' : List Child} (first : NestIn room l) (rest : NestIn room l') :
    NestIn room (l ++ l') := List.forall_mem_append.2 ⟨first, rest⟩

theorem nestIn_listed {nodes : List Node} (each : ∀ node ∈ nodes, Nests room node) :
    NestIn room (Child.listed nodes) := fun _ inside => each _ (Child.mem_listed inside)

theorem nestIn_alone {nodes : List Node} (each : ∀ node ∈ nodes, Nests room node) :
    NestIn room (Child.alone nodes) := fun _ inside => each _ (Child.mem_alone inside)

theorem nestIn_one {node : Node} (nests : Nests room node) : NestIn room (Child.alone [node]) :=
  nestIn_alone (List.forall_mem_singleton.2 nests)

/-- Children that are made of the items of a list. -/
theorem nestIn_map {α : Type} {wrap : α → Node} (nests : ∀ a, Nests room (wrap a)) (l : List α) :
    NestIn room (Child.alone (l.map wrap)) :=
  nestIn_alone fun _ inside => let ⟨a, _, same⟩ := List.mem_map.1 inside; same ▸ nests a

/-- A node without children. -/
theorem nests_leaf (node : Node) (plain : node.isConstruct = false) (none : node.children = []) :
    Nests room node := .other plain (none ▸ nestIn_nil)

theorem nests_ofIndex (i : Index) : Nests room (ofIndex i) := by
  cases i with
  | number n => exact nests_leaf (number n) rfl rfl
  | identifier id => exact nests_leaf (identifier id) rfl rfl

theorem nests_ofSignatureRef (sig : SignatureRef) : Nests room (ofSignatureRef sig) := by
  cases sig with
  | inline s => exact nests_leaf (signature s) rfl rfl
  | ref i => exact nests_ofIndex i

theorem nests_identifier (id : Identifier) : Nests room (identifier id) := nests_leaf _ rfl rfl

theorem nests_globalType (t : GlobalType) : Nests room (globalType t) := nests_leaf _ rfl rfl

theorem nests_limits (l : Limits) : Nests room (limits l) := nests_leaf _ rfl rfl

theorem nests_table (t : TableDef) : Nests room (table t) :=
  .other rfl ((nestIn_one (nests_limits _)).append
    ((nestIn_map nests_identifier _).append (nestIn_map nests_ofIndex _)))

theorem nests_memory (m : MemoryDef) : Nests room (memory m) :=
  .other rfl ((nestIn_one (nests_limits _)).append (nestIn_map nests_identifier _))

theorem nests_funcImport (d : FuncImport) : Nests room (funcImport d) :=
  .other rfl ((nestIn_one (nests_identifier _)).append (nestIn_one (nests_ofSignatureRef _)))

theorem nests_moduleImport (decl : ModuleImport) : Nests room (moduleImport decl) := by
  refine .other rfl (nestIn_one ?_)
  cases decl.descr with
  | func d => exact nests_funcImport d
  | table t => exact nests_table t
  | memory m => exact nests_memory m
  | global t => exact nests_globalType t

theorem nests_moduleExport (e : ModuleExport) : Nests room (moduleExport e) :=
  .other rfl (nestIn_one (.other rfl (nestIn_one (nests_ofIndex _))))

theorem nests_typeDef (t : TypeDef) : Nests room (typeDef t) :=
  .other rfl ((nestIn_map nests_identifier _).append (nestIn_one (nests_leaf (signature _) rfl rfl)))

theorem nests_start (i : Index) : Nests room (start i) := .other rfl (nestIn_one (nests_ofIndex i))

theorem nests_sectionMetadata (s : SectionMetadata) : Nests room (sectionMetadata s) :=
  .other rfl ((nestIn_one (nests_leaf (number _) rfl rfl)).append (nestIn_one (nests_leaf (number _) rfl rfl)))

theorem nests_moduleMetadata (m : ModuleMetadata) : Nests room (moduleMetadata m) :=
  .other rfl ((nestIn_map nests_sectionMetadata _).append
    ((nestIn_map (fun f => nests_leaf (functionName f) rfl rfl) _).append
      ((nestIn_map (fun l => nests_leaf (localName l) rfl rfl) _).append
        (nestIn_map (fun n => nests_leaf (moduleName n) rfl rfl) _))))

end Children

/-! ## Fields -/

/-- The code in a field leaves room for some constructs. -/
def CodeNests (room : Nat) (nodes : List Node) : Prop := ∀ node ∈ nodes, Nests room node

section Fields

variable {room : Nat}

theorem nests_func {name : Identifier} {sig : SignatureRef} {locals : List Param} {body : List Node}
    {metadata : Option FuncMetadata} (inside : CodeNests room body) :
    Nests room (func name sig locals body metadata) :=
  .other rfl ((nestIn_one (nests_identifier _)).append
    ((nestIn_one (nests_ofSignatureRef _)).append (nestIn_listed inside)))

theorem nests_global {type : GlobalType} {init : List Node} {name : Option Identifier}
    (inside : CodeNests room init) : Nests room (global type init name) :=
  .other rfl ((nestIn_one (nests_globalType _)).append
    ((nestIn_listed inside).append (nestIn_map nests_identifier _)))

theorem nests_elem {target : Index} {offset : List Node} {funcs : List Index} (inside : CodeNests room offset) :
    Nests room (elem target offset funcs) :=
  .other rfl ((nestIn_one (nests_ofIndex _)).append
    ((nestIn_listed inside).append (nestIn_map nests_ofIndex _)))

theorem nests_data {target : Index} {offset : List Node} {init : List UInt8} (inside : CodeNests room offset) :
    Nests room (data target offset init) :=
  .other rfl ((nestIn_one (nests_ofIndex _)).append
    ((nestIn_listed inside).append (nestIn_one (nests_leaf (bytes _) rfl rfl))))

theorem nests_module {id : Option String} {fields : List Node} {metadata : Option ModuleMetadata}
    (inside : ∀ field ∈ fields, Nests room field) : Nests room (.module id fields metadata) :=
  .other rfl ((nestIn_listed inside).append (nestIn_map nests_moduleMetadata _))

/-- A construct takes one of the places that there are. -/
theorem nests_block {label : Identifier} {result : Option Valtype} {body : List Node}
    (inside : CodeNests room body) : Nests (room + 1) (block label body result) :=
  .construct rfl ((nestIn_one (nests_identifier _)).append (nestIn_listed inside))

theorem nests_loop {label : Identifier} {result : Option Valtype} {body : List Node}
    (inside : CodeNests room body) : Nests (room + 1) (loop label result body) :=
  .construct rfl ((nestIn_one (nests_identifier _)).append (nestIn_listed inside))

theorem nests_ifElse {label : Identifier} {result : Option Valtype} {consequent alternate : List Node}
    (whenTrue : CodeNests room consequent) (whenFalse : CodeNests room alternate) :
    Nests (room + 1) (ifElse label result consequent alternate) :=
  .construct rfl ((nestIn_one (nests_identifier _)).append
    ((nestIn_listed whenTrue).append (nestIn_listed whenFalse)))

theorem nests_of_operands {ref : Index → Prop} {immediate : Immediate} {args : List Node}
    {memArg : Option MemArg} (operands : Operands ref immediate args memArg) : CodeNests room args := by
  cases operands with
  | none | memoryReserved | memArg => exact nofun
  | index => exact List.forall_mem_singleton.2 (nests_ofIndex _)
  | brTable => exact List.forall_mem_map.2 fun i _ => nests_ofIndex i
  | i32 => exact List.forall_mem_singleton.2 (nests_leaf (number _) rfl rfl)
  | i64 => exact List.forall_mem_singleton.2 (nests_leaf (longNumber _) rfl rfl)
  | f32 | f64 => exact List.forall_mem_singleton.2 (nests_leaf (float _) rfl rfl)

/-- Instructions with a binary form stand inside few enough constructs. -/
theorem nests_of_encodable {ref : Index → Prop} {sig : SignatureRef → Prop} {depth : Nat} {node : Node}
    (encodable : Encodable ref sig depth node) : Nests (Binary.maxNesting - depth) node := by
  induction encodable with
  | instr _ _ _ _ operands => exact .other rfl (nestIn_listed (nests_of_operands operands))
  | block nested _ ih => exact (nests_block ih).mono (by omega)
  | loop nested _ ih => exact (nests_loop ih).mono (by omega)
  | ifElse nested _ _ ihTrue ihFalse => exact (nests_ifElse ihTrue ihFalse).mono (by omega)
  | call => exact .other rfl (nestIn_one (nests_ofIndex _))
  | callIndirect => exact .other rfl (nestIn_one (nests_ofSignatureRef _))

end Fields

end Node

end WasmEngine
