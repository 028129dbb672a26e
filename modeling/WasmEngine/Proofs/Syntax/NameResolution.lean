import Mathlib.Tactic.Common
import WasmEngine.Proofs.Outcome
import WasmEngine.Syntax.Resolution

/-!
# What names resolve to

A name in a resolved position stands for a number: the first place that it has among the functions, globals,
memories or tables of the module, among the parameters and locals of the function, or among the labels around
it, from the innermost.  Resolving succeeds just if every such name stands for a number, and then puts these
numbers in place of the names and changes nothing else (`Module.resolveNames_exact`).
-/

namespace WasmEngine

open Node Outcome

/-! ## What a name stands for -/

/-- The first place of something in a list. -/
def FirstAt {α : Type} (xs : List α) (x : α) (n : Nat) : Prop := xs[n]? = some x ∧ ∀ k < n, xs[k]? ≠ some x

/-- A search for equal elements finds the first place. -/
theorem findIdx?_eq_some_iff_firstAt {α : Type} [BEq α] [LawfulBEq α] {xs : List α} {x : α} {n : Nat} :
    xs.findIdx? (· == x) = some n ↔ FirstAt xs x n := by
  rw [List.findIdx?_eq_some_iff_getElem]
  constructor
  · rintro ⟨within, here, before⟩
    refine ⟨by rw [List.getElem?_eq_getElem within, eq_of_beq here], fun k earlier there => ?_⟩
    obtain ⟨_, same⟩ := List.getElem?_eq_some_iff.1 there
    exact before k earlier (beq_iff_eq.2 same)
  · rintro ⟨here, before⟩
    obtain ⟨within, same⟩ := List.getElem?_eq_some_iff.1 here
    refine ⟨within, beq_iff_eq.2 same, fun k earlier found => before k earlier ?_⟩
    rw [List.getElem?_eq_getElem (Nat.lt_trans earlier within), eq_of_beq found]

/-- What a field adds to a module by an import or a definition, and its name. -/
def Node.entry? : Node → Option (ExportKind × Option String)
  | .func name .. => some (.func, some name.value)
  | .global _ _ name => some (.global, name.map Identifier.value)
  | .table t => some (.table, t.name.map Identifier.value)
  | .memory m => some (.memory, m.id.map Identifier.value)
  | .moduleImport ⟨_, _, .func d, _⟩ => some (.func, some d.id.value)
  | .moduleImport ⟨_, _, .global _, id⟩ => some (.global, id.map Identifier.value)
  | .moduleImport ⟨_, _, .table t, _⟩ => some (.table, t.name.map Identifier.value)
  | .moduleImport ⟨_, _, .memory m, _⟩ => some (.memory, m.id.map Identifier.value)
  | _ => none

/-- The names of the functions, tables, memories or globals that fields add, in order. -/
def entryNames (kind : ExportKind) (fields : List Node) : List (Option String) :=
  fields.filterMap fun field =>
    match field.entry? with
    | some (k, name) => if k = kind then some name else none
    | none => none

/-- The names of the parameters and locals of a function.  A signature that is given by reference has no
parameters yet. -/
def Node.localNames : Node → List (Option String)
  | .func _ (.inline sig) locals _ _ => (sig.params ++ locals).map Param.id
  | .func _ (.ref _) locals _ _ => locals.map Param.id
  | _ => []

/-- A name of a space stands for a number, among the fields of a module, the locals of a function and the labels
of the constructs around it, innermost first. -/
def StandsFor (fields : List Node) (locals : List (Option String)) (labels : List String) :
    Space → String → Nat → Prop
  | .function, name, n => FirstAt (entryNames .func fields) (some name) n
  | .global, name, n => FirstAt (entryNames .global fields) (some name) n
  | .memory, name, n => FirstAt (entryNames .memory fields) (some name) n
  | .table, name, n => FirstAt (entryNames .table fields) (some name) n
  | .local, name, n => FirstAt locals (some name) n
  | .label, name, n => FirstAt labels name n

/-! ## Where names are resolved -/

/-- The space that an export refers to. -/
def ExportKind.space : ExportKind → Space
  | func => .function
  | table => .table
  | memory => .memory
  | global => .global

/-- The instructions that refer to a local by their first argument. -/
def localInstructions : List String := ["get_local", "set_local", "tee_local"]

/-- The instructions that refer to a global by their first argument. -/
def globalInstructions : List String := ["get_global", "set_global"]

/-- The instructions that refer to a label by each argument. -/
def branchInstructions : List String := ["br", "br_if", "br_table"]

namespace Node

/-- Inside an instruction that stands under labels, a name of a space stands under labels, innermost first. -/
inductive Mentions : List String → Node → List String → Space → Identifier → Prop
  | firstLocal {around : List String} {name : String} {object : Option Valtype} {id : Identifier}
    {args : List Node} {memArg : Option MemArg} (known : name ∈ localInstructions) :
    Mentions around (.instr name object (.identifier id :: args) memArg) around .local id
  | firstGlobal {around : List String} {name : String} {object : Option Valtype} {id : Identifier}
    {args : List Node} {memArg : Option MemArg} (known : name ∈ globalInstructions) :
    Mentions around (.instr name object (.identifier id :: args) memArg) around .global id
  | target {around : List String} {name : String} {object : Option Valtype} {id : Identifier}
    {args : List Node} {memArg : Option MemArg} (known : name ∈ branchInstructions)
    (inside : .identifier id ∈ args) : Mentions around (.instr name object args memArg) around .label id
  | callee {around : List String} {id : Identifier} : Mentions around (.call (.identifier id)) around .function id
  | block {around labels : List String} {label : Identifier} {body : List Node} {result : Option Valtype}
    {node : Node} {space : Space} {id : Identifier} (inside : node ∈ body)
    (mentions : Mentions (label.value :: around) node labels space id) :
    Mentions around (.block label body result) labels space id
  | loop {around labels : List String} {label : Identifier} {body : List Node} {result : Option Valtype}
    {node : Node} {space : Space} {id : Identifier} (inside : node ∈ body)
    (mentions : Mentions (label.value :: around) node labels space id) :
    Mentions around (.loop label result body) labels space id
  | consequent {around labels : List String} {label : Identifier} {whenTrue whenFalse : List Node}
    {result : Option Valtype} {node : Node} {space : Space} {id : Identifier} (inside : node ∈ whenTrue)
    (mentions : Mentions (label.value :: around) node labels space id) :
    Mentions around (.ifElse label result whenTrue whenFalse) labels space id
  | alternate {around labels : List String} {label : Identifier} {whenTrue whenFalse : List Node}
    {result : Option Valtype} {node : Node} {space : Space} {id : Identifier} (inside : node ∈ whenFalse)
    (mentions : Mentions (label.value :: around) node labels space id) :
    Mentions around (.ifElse label result whenTrue whenFalse) labels space id

/-- Inside a field, a name of a space stands under labels, innermost first. -/
inductive FieldMentions : Node → List String → Space → Identifier → Prop
  | body {name : Identifier} {signature : SignatureRef} {locals : List Param} {body : List Node}
    {metadata : Option FuncMetadata} {node : Node} {labels : List String} {space : Space} {id : Identifier}
    (inside : node ∈ body) (mentions : Mentions [] node labels space id) :
    FieldMentions (.func name signature locals body metadata) labels space id
  | start {id : Identifier} : FieldMentions (.start (.identifier id)) [] .function id
  | exported {name : String} {kind : ExportKind} {id : Identifier} :
    FieldMentions (.moduleExport ⟨name, ⟨kind, .identifier id⟩⟩) [] kind.space id
  | initialiser {type : GlobalType} {init : List Node} {name : Option Identifier} {node : Node}
    {labels : List String} {space : Space} {id : Identifier} (inside : node ∈ init)
    (mentions : Mentions [] node labels space id) : FieldMentions (.global type init name) labels space id
  | element {t : TableDef} {id : Identifier} (inside : .identifier id ∈ t.elements) :
    FieldMentions (.table t) [] .function id
  | elemTable {id : Identifier} {offset : List Node} {funcs : List Index} :
    FieldMentions (.elem (.identifier id) offset funcs) [] .table id
  | elemOffset {target : Index} {offset : List Node} {funcs : List Index} {node : Node} {labels : List String}
    {space : Space} {id : Identifier} (inside : node ∈ offset) (mentions : Mentions [] node labels space id) :
    FieldMentions (.elem target offset funcs) labels space id
  | elemFunc {target : Index} {offset : List Node} {funcs : List Index} {id : Identifier}
    (inside : .identifier id ∈ funcs) : FieldMentions (.elem target offset funcs) [] .function id
  | dataMemory {id : Identifier} {offset : List Node} {values : List UInt8} :
    FieldMentions (.data (.identifier id) offset values) [] .memory id
  | dataOffset {target : Index} {offset : List Node} {values : List UInt8} {node : Node} {labels : List String}
    {space : Space} {id : Identifier} (inside : node ∈ offset) (mentions : Mentions [] node labels space id) :
    FieldMentions (.data target offset values) labels space id

end Node

/-! ## Numbers in place of names -/

/-- The reference with a number in place of its name. -/
def Index.numbered (number : String → Nat) : Index → Index
  | .number n => .number n
  | .identifier id => .number (.ofInt (number id.value))

namespace Node

/-- The argument with a number in place of its name. -/
def argNumbered (number : String → Nat) : Node → Node
  | .identifier id => .number (.ofInt (number id.value))
  | node => node

/-- The arguments of an instruction with numbers in place of the names in them. -/
def argsNumbered (number : Space → String → Nat) (name : String) (args : List Node) : List Node :=
  if name ∈ localInstructions then args.modifyHead (argNumbered (number .local))
  else if name ∈ globalInstructions then args.modifyHead (argNumbered (number .global))
  else if name ∈ branchInstructions then args.map (argNumbered (number .label))
  else args

mutual

/-- The instruction that stands under labels with numbers in place of the names in it. -/
def numbered (number : List String → Space → String → Nat) (around : List String) : Node → Node
  | .instr name object args memArg => .instr name object (argsNumbered (number around) name args) memArg
  | .call i => .call (i.numbered (number around .function))
  | .block label body result => .block label (allNumbered number (label.value :: around) body) result
  | .loop label result body => .loop label result (allNumbered number (label.value :: around) body)
  | .ifElse label result consequent alternate =>
    .ifElse label result (allNumbered number (label.value :: around) consequent)
      (allNumbered number (label.value :: around) alternate)
  | node => node

/-- The instructions that stand under labels with numbers in place of the names in them. -/
def allNumbered (number : List String → Space → String → Nat) (around : List String) : List Node → List Node
  | [] => []
  | node :: nodes => numbered number around node :: allNumbered number around nodes

end

/-- The field with numbers in place of the names in it. -/
def fieldNumbered (number : List String → Space → String → Nat) : Node → Node
  | .func name sig locals body metadata => .func name sig locals (allNumbered number [] body) metadata
  | .start i => .start (i.numbered (number [] .function))
  | .moduleExport e =>
    .moduleExport { e with descr := { e.descr with id := e.descr.id.numbered (number [] e.descr.kind.space) } }
  | .global type init name => .global type (allNumbered number [] init) name
  | .table t => .table { t with elements := t.elements.map (Index.numbered (number [] .function)) }
  | .elem target offset funcs =>
    .elem (target.numbered (number [] .table)) (allNumbered number [] offset)
      (funcs.map (Index.numbered (number [] .function)))
  | .data target offset values =>
    .data (target.numbered (number [] .memory)) (allNumbered number [] offset) values
  | node => node

end Node

/-- The module with numbers in place of the names in it, which depend on the locals and labels around. -/
def Module.numbered (number : List (Option String) → List String → Space → String → Nat) (m : Module) : Module :=
  { m with fields := m.fields.map fun field => field.fieldNumbered (number field.localNames) }

/-! ## Resolving -/

/-- The names of an index space are those of its imports and definitions, in order. -/
theorem names_eq_entryNames (fields : List Node) (kind : ExportKind) :
    (Namespaces.ofFields fields).names kind.space = entryNames kind fields := by
  induction fields with
  | nil => cases kind <;> rfl
  | cons field fields ih =>
    have both : (Namespaces.ofFields (field :: fields)).names kind.space =
        (Namespaces.ofField field).names kind.space ++ (Namespaces.ofFields fields).names kind.space := by
      cases kind <;> rfl
    have one : entryNames kind (field :: fields) =
        (Namespaces.ofField field).names kind.space ++ entryNames kind fields := by
      cases field with
      | moduleImport decl =>
        obtain ⟨m, name, descr, id⟩ := decl
        cases descr <;> cases kind <;> rfl
      | func | global | memory | table => cases kind <;> rfl
      | _ => cases kind <;> rfl
    rw [both, one, ih]

namespace Scope

/-- The scope under other labels. -/
def under (s : Scope) (labels : List String) : Scope := { s with labels }

/-- The number of a name under labels, if it has one. -/
def numberUnder (s : Scope) (labels : List String) (space : Space) (name : String) : Nat :=
  ((s.under labels).position? space name).getD 0

/-- A name has a number under labels. -/
def Binds (s : Scope) (labels : List String) (space : Space) (name : String) : Prop :=
  ∃ n, (s.under labels).position? space name = some n

/-- A name is looked up as what it stands for. -/
theorem position?_eq_some_iff {fields : List Node} {locals : List (Option String)} {labels : List String}
    {space : Space} {name : String} {n : Nat} :
    (⟨Namespaces.ofFields fields, locals, labels⟩ : Scope).position? space name = some n ↔
      StandsFor fields locals labels space name n := by
  cases space with
  | function => rw [StandsFor, ← names_eq_entryNames]; exact findIdx?_eq_some_iff_firstAt
  | «local» => exact findIdx?_eq_some_iff_firstAt
  | global => rw [StandsFor, ← names_eq_entryNames]; exact findIdx?_eq_some_iff_firstAt
  | label => exact findIdx?_eq_some_iff_firstAt
  | memory => rw [StandsFor, ← names_eq_entryNames]; exact findIdx?_eq_some_iff_firstAt
  | table => rw [StandsFor, ← names_eq_entryNames]; exact findIdx?_eq_some_iff_firstAt

variable {s : Scope} {space : Space}

/-- A name is resolved exactly when it is bound, to its position. -/
theorem okIff_number (s : Scope) (space : Space) (name : String) :
    OkIff (s.number space name) (s.Binds s.labels space name)
      (.ofInt (s.numberUnder s.labels space name)) := by
  unfold Scope.number Binds numberUnder
  change OkIff _ (∃ n, s.position? space name = some n) (NumberLiteral.ofInt ((s.position? space name).getD 0))
  cases s.position? space name with
  | none => exact okIff_error (fun ⟨_, found⟩ => nomatch found) _
  | some n => exact (okIff_pure _).congr ⟨fun _ => ⟨n, rfl⟩, fun _ => trivial⟩

/-- An index is resolved exactly when its name is bound. -/
theorem okIff_index (s : Scope) (space : Space) (i : Index) :
    OkIff (s.index space i) (∀ id, i = .identifier id → s.Binds s.labels space id.value)
      (i.numbered (s.numberUnder s.labels space)) := by
  cases i with
  | number n => exact (okIff_pure _).congr ⟨fun _ => nofun, fun _ => trivial⟩
  | identifier id =>
    exact ((okIff_number s space id.value).map Index.number).congr
      ⟨fun binds _ same => by cases same; exact binds, fun all => all id rfl⟩

/-- An argument is resolved exactly when its name is bound. -/
theorem okIff_arg (s : Scope) (space : Space) (node : Node) :
    OkIff (s.arg space node) (∀ id, node = .identifier id → s.Binds s.labels space id.value)
      (node.argNumbered (s.numberUnder s.labels space)) := by
  cases node with
  | identifier id =>
    exact ((okIff_number s space id.value).map Node.number).congr
      ⟨fun binds _ same => by cases same; exact binds, fun all => all id rfl⟩
  | _ => exact (okIff_pure _).congr ⟨fun _ => nofun, fun _ => trivial⟩

/-- The first argument is resolved exactly when its name is bound, and the others are left. -/
theorem okIff_firstArg (s : Scope) (space : Space) (args : List Node) :
    OkIff (s.firstArg space args) (∀ id, args.head? = some (.identifier id) → s.Binds s.labels space id.value)
      (args.modifyHead (argNumbered (s.numberUnder s.labels space))) := by
  cases args with
  | nil => exact (okIff_pure _).congr ⟨fun _ => nofun, fun _ => trivial⟩
  | cons arg args =>
    refine ((okIff_arg s space arg).map (· :: args)).congr ?_
    simp only [List.head?_cons, Option.some.injEq]

/-- The instructions on locals, those on globals and the branches have no name in common. -/
theorem disjoint_instructions {name : String} :
    (name ∈ localInstructions → name ∉ globalInstructions ∧ name ∉ branchInstructions) ∧
      (name ∈ globalInstructions → name ∉ branchInstructions) := by
  have locals : ∀ name ∈ localInstructions, name ∉ globalInstructions ∧ name ∉ branchInstructions := by decide
  have globals : ∀ name ∈ globalInstructions, name ∉ branchInstructions := by decide
  exact ⟨locals name, globals name⟩

/-- Arguments are resolved by the index space that the instruction names. -/
theorem args_eq (s : Scope) (name : String) (args : List Node) :
    s.args name args =
      if name ∈ localInstructions then s.firstArg .local args
      else if name ∈ globalInstructions then s.firstArg .global args
      else if name ∈ branchInstructions then args.mapM (s.arg .label)
      else .ok args := by
  unfold Scope.args
  split <;> simp_all [localInstructions, globalInstructions, branchInstructions]

/-- The names of a node under labels are all bound in the scope. -/
def BindsIn (s : Scope) (around : List String) (node : Node) : Prop :=
  ∀ labels space id, node.Mentions around labels space id → s.Binds labels space id.value

/-- Arguments are resolved exactly when the names they mention are bound. -/
theorem okIff_args (s : Scope) (name : String) (object : Option Valtype) (args : List Node)
    (memArg : Option MemArg) :
    OkIff (s.args name args) (s.BindsIn s.labels (.instr name object args memArg))
      (argsNumbered (s.numberUnder s.labels) name args) := by
  rw [args_eq, argsNumbered]
  split
  · next isLocal =>
    refine (okIff_firstArg s .local args).congr ⟨fun all labels space id mentions => ?_, fun all id first => ?_⟩
    · cases mentions with
      | firstLocal => exact all id rfl
      | firstGlobal isGlobal => exact absurd isGlobal (disjoint_instructions.1 isLocal).1
      | target isBranch => exact absurd isBranch (disjoint_instructions.1 isLocal).2
    · obtain ⟨rest, rfl⟩ := List.head?_eq_some_iff.1 first
      exact all _ _ id (.firstLocal isLocal)
  split
  · next isGlobal =>
    refine (okIff_firstArg s .global args).congr ⟨fun all labels space id mentions => ?_, fun all id first => ?_⟩
    · cases mentions with
      | firstLocal isLocal => exact absurd isLocal ‹_›
      | firstGlobal => exact all id rfl
      | target isBranch => exact absurd isBranch (disjoint_instructions.2 isGlobal)
    · obtain ⟨rest, rfl⟩ := List.head?_eq_some_iff.1 first
      exact all _ _ id (.firstGlobal isGlobal)
  split
  · next isBranch =>
    refine (okIff_mapM fun arg _ => okIff_arg s .label arg).congr
      ⟨fun all labels space id mentions => ?_, fun all arg inside id same => ?_⟩
    · cases mentions with
      | firstLocal isLocal => exact absurd isLocal ‹_›
      | firstGlobal isGlobal => exact absurd isGlobal ‹_›
      | target _ inside => exact all _ inside id rfl
    · cases same
      exact all _ _ id (.target isBranch inside)
  · next isBranch =>
    refine (okIff_pure args).congr ⟨fun _ labels space id mentions => ?_, fun _ => trivial⟩
    cases mentions with
    | firstLocal isLocal => exact absurd isLocal ‹_›
    | firstGlobal isGlobal => exact absurd isGlobal ‹_›
    | target known => exact absurd known isBranch

mutual

/-- An instruction is resolved exactly when the names in it are bound. -/
theorem okIff_instr : ∀ (s : Scope) (node : Node),
    OkIff (s.instr node) (s.BindsIn s.labels node) (node.numbered s.numberUnder s.labels)
  | s, .instr name object args memArg => by
    rw [instr, numbered]
    exact (okIff_args s name object args memArg).map (Node.instr name object · memArg)
  | s, .call i => by
    rw [instr, numbered]
    refine ((okIff_index s .function i).map Node.call).congr
      ⟨fun all labels space id mentions => ?_, fun all id same => ?_⟩
    · cases mentions
      exact all id rfl
    · cases same
      exact all _ _ id .callee
  | s, .block label body result => by
    rw [instr, numbered]
    refine ((okIff_body (s.enter label) body).map (Node.block label · result)).congr
      ⟨fun all labels space id mentions => ?_, fun all node inside labels space id mentions => ?_⟩
    · cases mentions with
      | block inside mentions => exact all _ inside labels space id mentions
    · exact all labels space id (.block inside mentions)
  | s, .loop label result body => by
    rw [instr, numbered]
    refine ((okIff_body (s.enter label) body).map (Node.loop label result)).congr
      ⟨fun all labels space id mentions => ?_, fun all node inside labels space id mentions => ?_⟩
    · cases mentions with
      | loop inside mentions => exact all _ inside labels space id mentions
    · exact all labels space id (.loop inside mentions)
  | s, .ifElse label result consequent alternate => by
    rw [instr, numbered]
    refine ((okIff_body (s.enter label) consequent).bind ((okIff_body (s.enter label) alternate).map _)).congr
      ⟨fun all labels space id mentions => ?_, fun all => ⟨fun node inside labels space id mentions => ?_,
        fun node inside labels space id mentions => ?_⟩⟩
    · cases mentions with
      | consequent inside mentions => exact all.1 _ inside labels space id mentions
      | alternate inside mentions => exact all.2 _ inside labels space id mentions
    · exact all labels space id (.consequent inside mentions)
    · exact all labels space id (.alternate inside mentions)
  | s, .program _ | s, .module .. | s, .func .. | s, .callIndirect _ | s, .global .. | s, .elem ..
  | s, .data .. | s, .moduleImport _ | s, .funcImport _ | s, .moduleMetadata _ | s, .moduleName _
  | s, .functionName _ | s, .localName _ | s, .sectionMetadata _ | s, .typeDef _ | s, .signature _
  | s, .number _ | s, .longNumber _ | s, .float _ | s, .valtype _ | s, .identifier _ | s, .globalType _
  | s, .table _ | s, .memory _ | s, .limits _ | s, .exportDescr _ | s, .moduleExport _ | s, .start _
  | s, .bytes _ => (okIff_pure _).congr ⟨fun _ _ _ _ => nofun, fun _ => trivial⟩

/-- A body is resolved exactly when the names in it are bound. -/
theorem okIff_body : ∀ (s : Scope) (nodes : List Node),
    OkIff (s.body nodes) (∀ node ∈ nodes, s.BindsIn s.labels node) (allNumbered s.numberUnder s.labels nodes)
  | s, [] => by
    rw [body, allNumbered]
    exact (okIff_pure []).congr ⟨fun _ => nofun, fun _ => trivial⟩
  | s, node :: nodes => by
    rw [body, allNumbered]
    exact ((okIff_instr s node).bind ((okIff_body s nodes).map _)).congr List.forall_mem_cons.symm

end

/-- A list of indices is resolved exactly when their names are bound. -/
theorem okIff_indices (s : Scope) (space : Space) (is : List Index) :
    OkIff (s.indices space is) (∀ id, .identifier id ∈ is → s.Binds s.labels space id.value)
      (is.map (Index.numbered (s.numberUnder s.labels space))) := by
  refine (okIff_mapM fun i _ => okIff_index s space i).congr
    ⟨fun all id inside => all _ inside id rfl, fun all i inside id same => ?_⟩
  cases same
  exact all id inside

/-- The scope of a field: its parameters and locals, and no labels. -/
def ofField (spaces : Namespaces) (field : Node) : Scope := ⟨spaces, field.localNames, []⟩

/-- A field is resolved exactly when the names in it are bound. -/
theorem okIff_field (spaces : Namespaces) (field : Node) :
    OkIff ((⟨spaces, [], []⟩ : Scope).field field)
      (∀ labels space id, field.FieldMentions labels space id → (ofField spaces field).Binds labels space id.value)
      (field.fieldNumbered (ofField spaces field).numberUnder) := by
  cases field with
  | func name sig locals body metadata =>
    have inner : Scope.localNames sig locals = (Node.func name sig locals body metadata).localNames := by
      cases sig <;> rfl
    rw [Scope.field, inner]
    refine ((okIff_body (ofField spaces _) body).map (Node.func name sig locals · metadata)).congr
      ⟨fun all labels space id mentions => ?_, fun all node inside labels space id mentions => ?_⟩
    · cases mentions with
      | body inside mentions => exact all _ inside labels space id mentions
    · exact all labels space id (.body inside mentions)
  | start i =>
    refine ((okIff_index _ .function i).map Node.start).congr
      ⟨fun all labels space id mentions => ?_, fun all id same => ?_⟩
    · cases mentions
      exact all id rfl
    · cases same
      exact all _ _ id .start
  | moduleExport e =>
    obtain ⟨name, kind, i⟩ := e
    have inner : exportSpace kind = kind.space := by cases kind <;> rfl
    rw [Scope.field, inner]
    refine ((okIff_index _ kind.space i).map fun i => Node.moduleExport ⟨name, kind, i⟩).congr
      ⟨fun all labels space id mentions => ?_, fun all id same => ?_⟩
    · cases mentions
      exact all id rfl
    · cases same
      exact all _ _ id .exported
  | global type init name =>
    refine ((okIff_body _ init).map (Node.global type · name)).congr
      ⟨fun all labels space id mentions => ?_, fun all node inside labels space id mentions => ?_⟩
    · cases mentions with
      | initialiser inside mentions => exact all _ inside labels space id mentions
    · exact all labels space id (.initialiser inside mentions)
  | table t =>
    refine ((okIff_indices _ .function t.elements).map fun elements => Node.table { t with elements }).congr
      ⟨fun all labels space id mentions => ?_, fun all id inside => ?_⟩
    · cases mentions with
      | element inside => exact all id inside
    · exact all _ _ id (.element inside)
  | elem target offset funcs =>
    refine ((okIff_index _ .table target).bind ((okIff_body _ offset).bind
      ((okIff_indices _ .function funcs).map _))).congr ⟨fun all labels space id mentions => ?_, fun all =>
        ⟨fun id same => ?_, fun node inside labels space id mentions => ?_, fun id inside => ?_⟩⟩
    · cases mentions with
      | elemTable => exact all.1 id rfl
      | elemOffset inside mentions => exact all.2.1 _ inside labels space id mentions
      | elemFunc inside => exact all.2.2 id inside
    · cases same
      exact all _ _ id .elemTable
    · exact all labels space id (.elemOffset inside mentions)
    · exact all _ _ id (.elemFunc inside)
  | data target offset values =>
    refine ((okIff_index _ .memory target).bind ((okIff_body _ offset).map _)).congr
      ⟨fun all labels space id mentions => ?_, fun all =>
        ⟨fun id same => ?_, fun node inside labels space id mentions => ?_⟩⟩
    · cases mentions with
      | dataMemory => exact all.1 id rfl
      | dataOffset inside mentions => exact all.2 _ inside labels space id mentions
    · cases same
      exact all _ _ id .dataMemory
    · exact all labels space id (.dataOffset inside mentions)
  | _ => exact (okIff_pure _).congr ⟨fun _ _ _ _ => nofun, fun _ => trivial⟩

/-! ## Numbers that agree -/

section Agreement

variable {number number' : List String → Space → String → Nat}

/-- Two numberings give the same numbers to the names of a node under labels. -/
def AgreeIn (number number' : List String → Space → String → Nat) (around : List String) (node : Node) : Prop :=
  ∀ labels space id, node.Mentions around labels space id →
    number labels space id.value = number' labels space id.value

/-- Indices are numbered by the number of their name alone. -/
theorem index_numbered_congr {f g : String → Nat} {i : Index}
    (agree : ∀ id, i = .identifier id → f id.value = g id.value) : i.numbered f = i.numbered g := by
  cases i with
  | number n => rfl
  | identifier id => rw [Index.numbered, Index.numbered, agree id rfl]

theorem argNumbered_congr {f g : String → Nat} {node : Node}
    (agree : ∀ id, node = .identifier id → f id.value = g id.value) : argNumbered f node = argNumbered g node := by
  cases node with
  | identifier id => rw [argNumbered, argNumbered, agree id rfl]
  | _ => rfl

theorem argsNumbered_congr {around : List String} {name : String} {object : Option Valtype} {args : List Node}
    {memArg : Option MemArg} (agree : AgreeIn number number' around (.instr name object args memArg)) :
    argsNumbered (number around) name args = argsNumbered (number' around) name args := by
  unfold argsNumbered
  split
  · next isLocal =>
    cases args with
    | nil => rfl
    | cons arg args =>
      rw [List.modifyHead_cons, List.modifyHead_cons, argNumbered_congr]
      rintro id rfl
      exact agree _ _ id (.firstLocal isLocal)
  split
  · next isGlobal =>
    cases args with
    | nil => rfl
    | cons arg args =>
      rw [List.modifyHead_cons, List.modifyHead_cons, argNumbered_congr]
      rintro id rfl
      exact agree _ _ id (.firstGlobal isGlobal)
  split
  · next isBranch =>
    refine List.map_congr_left fun arg inside => argNumbered_congr ?_
    rintro id rfl
    exact agree _ _ id (.target isBranch inside)
  · rfl

mutual

/-- Nodes are numbered by the numbers of the names in them alone. -/
theorem numbered_congr : ∀ {around : List String} {node : Node}, AgreeIn number number' around node →
    node.numbered number around = node.numbered number' around
  | around, .instr name object args memArg, agree => by rw [numbered, numbered, argsNumbered_congr agree]
  | around, .call i, agree => by
    rw [numbered, numbered, index_numbered_congr]
    rintro id rfl
    exact agree _ _ id .callee
  | around, .block label body result, agree => by
    rw [numbered, numbered, allNumbered_congr fun node inside labels space id mentions =>
      agree labels space id (.block inside mentions)]
  | around, .loop label result body, agree => by
    rw [numbered, numbered, allNumbered_congr fun node inside labels space id mentions =>
      agree labels space id (.loop inside mentions)]
  | around, .ifElse label result consequent alternate, agree => by
    rw [numbered, numbered,
      allNumbered_congr fun node inside labels space id mentions =>
        agree labels space id (.consequent inside mentions),
      allNumbered_congr fun node inside labels space id mentions =>
        agree labels space id (.alternate inside mentions)]
  | _, .program _, _ | _, .module .., _ | _, .func .., _ | _, .callIndirect _, _ | _, .global .., _
  | _, .elem .., _ | _, .data .., _ | _, .moduleImport _, _ | _, .funcImport _, _ | _, .moduleMetadata _, _
  | _, .moduleName _, _ | _, .functionName _, _ | _, .localName _, _ | _, .sectionMetadata _, _
  | _, .typeDef _, _ | _, .signature _, _ | _, .number _, _ | _, .longNumber _, _ | _, .float _, _
  | _, .valtype _, _ | _, .identifier _, _ | _, .globalType _, _ | _, .table _, _ | _, .memory _, _
  | _, .limits _, _ | _, .exportDescr _, _ | _, .moduleExport _, _ | _, .start _, _ | _, .bytes _, _ => rfl

theorem allNumbered_congr : ∀ {around : List String} {nodes : List Node},
    (∀ node ∈ nodes, AgreeIn number number' around node) →
    allNumbered number around nodes = allNumbered number' around nodes
  | _, [], _ => rfl
  | around, node :: nodes, agree => by
    rw [allNumbered, allNumbered, numbered_congr (agree node List.mem_cons_self),
      allNumbered_congr fun other inside => agree other (List.mem_cons_of_mem node inside)]

end

theorem map_numbered_congr {f g : String → Nat} {is : List Index}
    (agree : ∀ id, .identifier id ∈ is → f id.value = g id.value) :
    is.map (Index.numbered f) = is.map (Index.numbered g) := by
  refine List.map_congr_left fun i inside => index_numbered_congr ?_
  rintro id rfl
  exact agree id inside

/-- Fields are numbered by the numbers of the names they mention alone. -/
theorem fieldNumbered_congr {field : Node}
    (agree : ∀ labels space id, field.FieldMentions labels space id →
      number labels space id.value = number' labels space id.value) :
    field.fieldNumbered number = field.fieldNumbered number' := by
  cases field with
  | func name sig locals body metadata =>
    rw [fieldNumbered, fieldNumbered, allNumbered_congr fun node inside labels space id mentions =>
      agree labels space id (.body inside mentions)]
  | start i =>
    rw [fieldNumbered, fieldNumbered, index_numbered_congr]
    rintro id rfl
    exact agree _ _ id .start
  | moduleExport e =>
    obtain ⟨name, kind, i⟩ := e
    rw [fieldNumbered, fieldNumbered, index_numbered_congr]
    rintro id rfl
    exact agree _ _ id .exported
  | global type init name =>
    rw [fieldNumbered, fieldNumbered, allNumbered_congr fun node inside labels space id mentions =>
      agree labels space id (.initialiser inside mentions)]
  | table t =>
    rw [fieldNumbered, fieldNumbered, map_numbered_congr fun id inside => agree _ _ id (.element inside)]
  | elem target offset funcs =>
    rw [fieldNumbered, fieldNumbered, map_numbered_congr fun id inside => agree _ _ id (.elemFunc inside),
      allNumbered_congr fun node inside labels space id mentions =>
        agree labels space id (.elemOffset inside mentions), index_numbered_congr]
    rintro id rfl
    exact agree _ _ id .elemTable
  | data target offset values =>
    rw [fieldNumbered, fieldNumbered, allNumbered_congr fun node inside labels space id mentions =>
        agree labels space id (.dataOffset inside mentions), index_numbered_congr]
    rintro id rfl
    exact agree _ _ id .dataMemory
  | _ => rfl

end Agreement

/-! ## Resolving again -/

section Again

variable {number : List String → Space → String → Nat}

/-- A numbered index is resolved to itself. -/
theorem index_numbered (s : Scope) (space : Space) (f : String → Nat) (i : Index) :
    s.index space (i.numbered f) = .ok (i.numbered f) := by
  cases i <;> rfl

theorem arg_argNumbered (s : Scope) (space : Space) (f : String → Nat) (node : Node) :
    s.arg space (argNumbered f node) = .ok (argNumbered f node) := by
  cases node <;> rfl

theorem firstArg_numbered (s : Scope) (space : Space) (f : String → Nat) (args : List Node) :
    s.firstArg space (args.modifyHead (argNumbered f)) = .ok (args.modifyHead (argNumbered f)) := by
  cases args with
  | nil => rfl
  | cons arg args =>
    rw [List.modifyHead_cons, firstArg, arg_argNumbered]
    rfl

theorem args_argsNumbered (s : Scope) (f : Space → String → Nat) (name : String) (args : List Node) :
    s.args name (argsNumbered f name args) = .ok (argsNumbered f name args) := by
  rw [args_eq, argsNumbered]
  split
  · exact firstArg_numbered s _ _ args
  split
  · exact firstArg_numbered s _ _ args
  split
  · exact mapM_map_fixed fun arg _ => arg_argNumbered s _ _ arg
  · rfl

mutual

/-- A numbered instruction is resolved to itself. -/
theorem instr_numbered : ∀ (s : Scope) (around : List String) (node : Node),
    s.instr (node.numbered number around) = .ok (node.numbered number around)
  | s, around, .instr name object args memArg => by rw [numbered, instr, args_argsNumbered]; rfl
  | s, around, .call i => by rw [numbered, instr, index_numbered]; rfl
  | s, around, .block label body result => by rw [numbered, instr, body_allNumbered]; rfl
  | s, around, .loop label result body => by rw [numbered, instr, body_allNumbered]; rfl
  | s, around, .ifElse label result consequent alternate => by
    rw [numbered, instr, body_allNumbered, body_allNumbered]; rfl
  | _, _, .program _ | _, _, .module .. | _, _, .func .. | _, _, .callIndirect _ | _, _, .global ..
  | _, _, .elem .. | _, _, .data .. | _, _, .moduleImport _ | _, _, .funcImport _ | _, _, .moduleMetadata _
  | _, _, .moduleName _ | _, _, .functionName _ | _, _, .localName _ | _, _, .sectionMetadata _
  | _, _, .typeDef _ | _, _, .signature _ | _, _, .number _ | _, _, .longNumber _ | _, _, .float _
  | _, _, .valtype _ | _, _, .identifier _ | _, _, .globalType _ | _, _, .table _ | _, _, .memory _
  | _, _, .limits _ | _, _, .exportDescr _ | _, _, .moduleExport _ | _, _, .start _ | _, _, .bytes _ => rfl

theorem body_allNumbered : ∀ (s : Scope) (around : List String) (nodes : List Node),
    s.body (allNumbered number around nodes) = .ok (allNumbered number around nodes)
  | _, _, [] => rfl
  | s, around, node :: nodes => by rw [allNumbered, body, instr_numbered, body_allNumbered]; rfl

end

theorem indices_numbered (s : Scope) (space : Space) (f : String → Nat) (is : List Index) :
    s.indices space (is.map (Index.numbered f)) = .ok (is.map (Index.numbered f)) :=
  mapM_map_fixed fun i _ => index_numbered s space f i

/-- A numbered field is resolved to itself. -/
theorem field_fieldNumbered (s : Scope) (field : Node) :
    s.field (field.fieldNumbered number) = .ok (field.fieldNumbered number) := by
  cases field with
  | func name sig locals body metadata => rw [fieldNumbered, Scope.field, body_allNumbered]; rfl
  | start i => rw [fieldNumbered, Scope.field, index_numbered]; rfl
  | moduleExport e => rw [fieldNumbered, Scope.field, index_numbered]; rfl
  | global type init name => rw [fieldNumbered, Scope.field, body_allNumbered]; rfl
  | table t => rw [fieldNumbered, Scope.field, indices_numbered]; rfl
  | elem target offset funcs =>
    rw [fieldNumbered, Scope.field, index_numbered, body_allNumbered, indices_numbered]; rfl
  | data target offset values => rw [fieldNumbered, Scope.field, index_numbered, body_allNumbered]; rfl
  | _ => rfl

end Again

end Scope

namespace Module

/-- The numbering gives to every name of the module the number that it stands for. -/
def NumberedBy (m : Module) (number : List (Option String) → List String → Space → String → Nat) : Prop :=
  ∀ field ∈ m.fields, ∀ labels space id, field.FieldMentions labels space id →
    StandsFor m.fields field.localNames labels space id.value (number field.localNames labels space id.value)

/-- The numbers that names have when a module is resolved. -/
def numbers (m : Module) (locals : List (Option String)) (labels : List String) (space : Space) (name : String) :
    Nat :=
  ((⟨Namespaces.ofFields m.fields, locals, labels⟩ : Scope).position? space name).getD 0

/-- A module is resolved exactly when every name that a field mentions stands for something. -/
theorem okIff_resolveNames (m : Module) :
    OkIff m.resolveNames
      (∀ field ∈ m.fields, ∀ labels space id, field.FieldMentions labels space id →
        ∃ n, StandsFor m.fields field.localNames labels space id.value n)
      (m.numbered m.numbers) := by
  refine ((okIff_mapM fun field _ => Scope.okIff_field (Namespaces.ofFields m.fields) field).map
    fun fields => { m with fields }).congr ?_
  simp only [Scope.Binds, Scope.under, Scope.ofField, Scope.position?_eq_some_iff]

/-- A numbering by what names stand for is the numbering by position. -/
theorem numbered_congr {m : Module} {number : List (Option String) → List String → Space → String → Nat}
    (numbered : m.NumberedBy number) : m.numbered number = m.numbered m.numbers := by
  refine congrArg (fun fields => { m with fields }) (List.map_congr_left fun field inside =>
    Scope.fieldNumbered_congr fun labels space id mentions => ?_)
  rw [numbers, Scope.position?_eq_some_iff.2 (numbered field inside labels space id mentions), Option.getD_some]

/-- A numbered module is resolved to itself. -/
theorem resolveNames_numbered (m : Module)
    (number : List (Option String) → List String → Space → String → Nat) :
    (m.numbered number).resolveNames = .ok (m.numbered number) := by
  have same : (m.fields.map fun field => field.fieldNumbered (number field.localNames)).mapM
      (Scope.field ⟨Namespaces.ofFields (m.numbered number).fields, [], []⟩) = .ok _ :=
    mapM_map_fixed fun field _ => Scope.field_fieldNumbered _ field
  exact bind_eq_ok_iff.2 ⟨_, same, rfl⟩

/-- The numbers of a module that is resolved are those that its names stand for. -/
theorem numberedBy_numbers {m : Module} (bound : ∀ field ∈ m.fields, ∀ labels space id,
    field.FieldMentions labels space id → ∃ n, StandsFor m.fields field.localNames labels space id.value n) :
    m.NumberedBy m.numbers := by
  intro field inside labels space id mentions
  obtain ⟨n, stands⟩ := bound field inside labels space id mentions
  rw [numbers, Scope.position?_eq_some_iff.2 stands]
  exact stands

/-- Resolving the names of a module succeeds just if every name stands for a number.  It then puts the numbers in
place of the names and changes nothing else, and resolving again changes nothing. -/
theorem resolveNames_exact (m : Module) :
    ((∃ m', m.resolveNames = .ok m') ↔ ∀ field ∈ m.fields, ∀ labels space id,
        field.FieldMentions labels space id → ∃ n, StandsFor m.fields field.localNames labels space id.value n) ∧
      ∀ m', (m.resolveNames = .ok m' ↔ ∃ number, m.NumberedBy number ∧ m' = m.numbered number) ∧
        (m.resolveNames = .ok m' → m'.resolveNames = .ok m') := by
  refine ⟨m.okIff_resolveNames.exists_iff, fun m' => ⟨⟨fun resolved => ?_, ?_⟩, fun resolved => ?_⟩⟩
  · obtain ⟨bound, rfl⟩ := (m.okIff_resolveNames m').1 resolved
    exact ⟨m.numbers, numberedBy_numbers bound, rfl⟩
  · rintro ⟨number, numbered, rfl⟩
    exact (m.okIff_resolveNames _).2
      ⟨fun field inside labels space id mentions => ⟨_, numbered field inside labels space id mentions⟩,
        numbered_congr numbered⟩
  · obtain ⟨-, rfl⟩ := (m.okIff_resolveNames m').1 resolved
    exact m.resolveNames_numbered _

/-- A function with a parameter and a local of one name and with nested constructs of one label, in a module that
has another function of the same name.  The references in it are given. -/
def shadowing (inner outer x f : Node) (callee : Index) : Module :=
  let body : List Node := [.block (.ofString "l") [
    .ifElse (.ofString "k") none [
      .loop (.ofString "l") none [.instr "br" none [inner] none],
      .instr "br_table" none [outer, .number ⟨0, "0"⟩] none] [.instr "br" none [outer] none]] none,
    .instr "get_local" none [x] none, .instr "get_global" none [f] none, .call callee]
  ⟨none, [.func (.ofString "g") (.inline ⟨[⟨none, .i32⟩, ⟨some "x", .i32⟩], []⟩) [⟨some "x", .i32⟩] body none,
    .func (.ofString "f") (.inline ⟨[], []⟩) [] [] none, .func (.ofString "f") (.inline ⟨[], []⟩) [] [] none,
    .global ⟨.i32, .const⟩ [] (some (.ofString "f"))], none⟩

theorem resolveNames_exact_shadowing :
    let m := shadowing (.identifier (.ofString "l")) (.identifier (.ofString "l")) (.identifier (.ofString "x"))
      (.identifier (.ofString "f")) (.identifier (.ofString "f"))
    let m' := shadowing (.number (.ofInt 0)) (.number (.ofInt 1)) (.number (.ofInt 1)) (.number (.ofInt 0))
      (.number (.ofInt 1))
    m.resolveNames = .ok m' ∧ m'.resolveNames = .ok m' ∧
      ∃ number, m.NumberedBy number ∧ m' = m.numbered number := by
  intro m m'
  have resolved : m.resolveNames = .ok m' := rfl
  obtain ⟨replaced, again⟩ := m.resolveNames_exact.2 m'
  exact ⟨resolved, again resolved, replaced.1 resolved⟩

end Module

end WasmEngine
