import Mathlib
import WasmEngine.Proofs.Syntax.Equality
import WasmEngine.Proofs.Syntax.References
import WasmEngine.Wat.Parse

/-!
# Generated names

Functions, globals, memories, tables and labels without a name get a generated one, which lives among
the names that the source spells.  Replacing the generated names by others does not change what a
module resolves to, as long as no name is spelled like a generated one of the same space
(`Program.agrees_resolve_rename`).
-/

namespace WasmEngine

/-! ## Outcomes that agree -/

section Agrees

variable {ε α β γ δ : Type}

/-- Both outcomes are errors, or the second has what a function makes of the first. -/
inductive Agrees (g : α → β) : Except ε α → Except ε β → Prop
  | ok {a : α} {b : β} (same : g a = b) : Agrees g (.ok a) (.ok b)
  | error (e e' : ε) : Agrees g (.error e) (.error e')

variable {g : α → β} {h : γ → δ} {x : Except ε α} {y : Except ε β}

/-- Steps in sequence agree under a renaming, the rest where the first one succeeds. -/
theorem Agrees.bind_of_ok {k : α → Except ε γ} {l : β → Except ε δ} (first : Agrees g x y)
    (rest : ∀ a, x = .ok a → Agrees h (k a) (l (g a))) : Agrees h (x >>= k) (y >>= l) := by
  cases first with
  | ok same => exact same ▸ rest _ rfl
  | error e e' => exact .error e e'

/-- Steps in sequence agree under a renaming when their parts do. -/
theorem Agrees.bind {k : α → Except ε γ} {l : β → Except ε δ} (first : Agrees g x y)
    (rest : ∀ a, Agrees h (k a) (l (g a))) : Agrees h (x >>= k) (y >>= l) :=
  first.bind_of_ok fun a _ => rest a

theorem Agrees.ok_iff (agrees : Agrees g x y) {b : β} : y = .ok b ↔ ∃ a, x = .ok a ∧ g a = b := by
  cases agrees with
  | ok same => simp [← same]
  | error e e' => simp

theorem agrees_refl (x : Except ε α) : Agrees id x x := by
  cases x with
  | ok a => exact .ok rfl
  | error e => exact .error e e

theorem agrees_mapM {f : α → Except ε α} {f' : β → Except ε β} {as : List α}
    (each : ∀ a ∈ as, Agrees g (f a) (f' (g a))) :
    Agrees (List.map g) (as.mapM f) ((as.map g).mapM f') := by
  induction as with
  | nil => exact .ok rfl
  | cons a as ih =>
    rw [List.map_cons, List.mapM_cons, List.mapM_cons]
    refine (each a List.mem_cons_self).bind fun _ => ?_
    exact (ih fun b inside => each b (List.mem_cons_of_mem a inside)).bind fun _ =>
      .ok rfl

end Agrees

/-! ## Names that occur -/

/-- The name in a reference. -/
def Index.identifier? : Index → Option Identifier
  | .number _ => none
  | .identifier id => some id

/-- The space of the names among the arguments of a plain instruction.  Locals are left out, since
none of them has a generated name. -/
def argumentSpace (id : String) : Option Space :=
  match id with
  | "get_global" | "set_global" => some .global
  | "br" | "br_if" | "br_table" => some .label
  | _ => none

/-- Names in a space. -/
def Space.names (space : Space) (ids : List Identifier) : List (Space × Identifier) :=
  ids.map (space, ·)

@[simp] theorem Space.mem_names {space other : Space} {ids : List Identifier} {id : Identifier} :
    (other, id) ∈ space.names ids ↔ other = space ∧ id ∈ ids := by
  simp [names, and_comm, eq_comm]

/-- The names that an import brings in. -/
def ModuleImport.mentions (decl : ModuleImport) : List (Space × Identifier) :=
  match decl.descr with
  | .func d => Space.function.names [d.id]
  | .global _ => Space.global.names decl.id.toList
  | .memory m => Space.memory.names m.id.toList
  | .table t => Space.table.names t.name.toList

namespace Node

/-- The name at a node. -/
def identifier? : Node → Option Identifier
  | .identifier id => some id
  | _ => none

/-- The names among the arguments of a plain instruction. -/
def argumentNames (id : String) (args : List Node) : List (Space × Identifier) :=
  match argumentSpace id with
  | some space => space.names (args.filterMap identifier?)
  | none => []

mutual

/-- The names that a node defines or refers to, except for those of types and locals. -/
def mentions : Node → List (Space × Identifier)
  | .program body => mentionsIn body
  | .module _ fields _ => mentionsIn fields
  | .func name _ _ body _ => Space.function.names [name] ++ mentionsIn body
  | .instr id _ args _ => argumentNames id args
  | .block label body _ => Space.label.names [label] ++ mentionsIn body
  | .loop label _ body => Space.label.names [label] ++ mentionsIn body
  | .ifElse label _ consequent alternate =>
    Space.label.names [label] ++ (mentionsIn consequent ++ mentionsIn alternate)
  | .call i => Space.function.names i.identifier?.toList
  | .global _ init name => Space.global.names name.toList ++ mentionsIn init
  | .table t =>
    Space.table.names t.name.toList ++ Space.function.names (t.elements.filterMap Index.identifier?)
  | .memory m => Space.memory.names m.id.toList
  | .moduleImport decl => decl.mentions
  | .moduleExport e => (Scope.exportSpace e.descr.kind).names e.descr.id.identifier?.toList
  | .start i => Space.function.names i.identifier?.toList
  | .elem target offset funcs => Space.table.names target.identifier?.toList ++
    (mentionsIn offset ++ Space.function.names (funcs.filterMap Index.identifier?))
  | .data target offset _ => Space.memory.names target.identifier?.toList ++ mentionsIn offset
  | _ => []

/-- The names that the nodes of a list define or refer to. -/
def mentionsIn : List Node → List (Space × Identifier)
  | [] => []
  | node :: nodes => mentions node ++ mentionsIn nodes

end

/-- A list mentions what its nodes mention, in order. -/
theorem mentionsIn_eq_flatMap (nodes : List Node) : mentionsIn nodes = nodes.flatMap mentions := by
  induction nodes with
  | nil => rfl
  | cons node nodes ih => rw [mentionsIn, ih, List.flatMap_cons]

end Node

/-! ## Renaming -/

/-- The name, replaced if it is a generated one. -/
def Identifier.rename (f : String → String) (id : Identifier) : Identifier :=
  if id.isSynthesized then { id with value := f id.value } else id

/-- The reference with its name replaced. -/
def Index.rename (f : String → String) : Index → Index
  | .number n => .number n
  | .identifier id => .identifier (id.rename f)

/-- The import with its name replaced. -/
def ModuleImport.rename (f : String → String) (decl : ModuleImport) : ModuleImport :=
  match decl.descr with
  | .func d => { decl with descr := .func { d with id := d.id.rename f } }
  | .global _ => { decl with id := decl.id.map (·.rename f) }
  | .memory m => { decl with descr := .memory { m with id := m.id.map (·.rename f) } }
  | .table t => { decl with descr := .table { t with name := t.name.map (·.rename f) } }

namespace Node

/-- The argument with its name replaced. -/
def renameArg (f : String → String) : Node → Node
  | .identifier id => .identifier (id.rename f)
  | node => node

/-- The arguments of a plain instruction with their names replaced. -/
def renameArgs (f : String → String) (id : String) (args : List Node) : List Node :=
  match argumentSpace id with
  | some _ => args.map (renameArg f)
  | none => args

mutual

/-- The node with every generated name replaced, where it is defined and where it is referred to. -/
def rename (f : String → String) : Node → Node
  | .program body => .program (renameAll f body)
  | .module id fields metadata => .module id (renameAll f fields) metadata
  | .func name sig locals body metadata => .func (name.rename f) sig locals (renameAll f body) metadata
  | .instr id object args memArg => .instr id object (renameArgs f id args) memArg
  | .block label body result => .block (label.rename f) (renameAll f body) result
  | .loop label result body => .loop (label.rename f) result (renameAll f body)
  | .ifElse label result consequent alternate =>
    .ifElse (label.rename f) result (renameAll f consequent) (renameAll f alternate)
  | .call i => .call (i.rename f)
  | .global type init name => .global type (renameAll f init) (name.map (·.rename f))
  | .table t =>
    .table { t with name := t.name.map (·.rename f), elements := t.elements.map (·.rename f) }
  | .memory m => .memory { m with id := m.id.map (·.rename f) }
  | .moduleImport decl => .moduleImport (decl.rename f)
  | .moduleExport e => .moduleExport { e with descr := { e.descr with id := e.descr.id.rename f } }
  | .start i => .start (i.rename f)
  | .elem target offset funcs =>
    .elem (target.rename f) (renameAll f offset) (funcs.map (·.rename f))
  | .data target offset init => .data (target.rename f) (renameAll f offset) init
  | node => node

/-- The nodes with every generated name replaced. -/
def renameAll (f : String → String) : List Node → List Node
  | [] => []
  | node :: nodes => rename f node :: renameAll f nodes

end

/-- Renaming a list renames its nodes. -/
theorem renameAll_eq_map (f : String → String) (nodes : List Node) :
    renameAll f nodes = nodes.map (rename f) := by
  induction nodes with
  | nil => rfl
  | cons node nodes ih => rw [renameAll, ih, List.map_cons]

end Node

/-- The module with every generated name replaced. -/
def Module.rename (f : String → String) (m : Module) : Module :=
  { m with fields := Node.renameAll f m.fields }

/-- The program with every generated name replaced. -/
def Program.rename (f : String → String) (p : Program) : Program := ⟨Node.renameAll f p.body⟩

open Node Outcome

variable {f : String → String}

/-! ## Inlining -/

namespace TypeReference

variable {types : List TypeDef}

theorem collect_renameArg (node : Node) : collect (renameArg f node) = collect node := by
  cases node <;> rfl

theorem collectAll_renameArgs (id : String) (args : List Node) :
    collectAll (renameArgs f id args) = collectAll args := by
  unfold renameArgs
  split
  · induction args with
    | nil => rfl
    | cons arg args ih => rw [List.map_cons, collectAll, ih, collect_renameArg, ← collectAll]
  · rfl

mutual

/-- Renaming names leaves the collected types. -/
theorem collect_rename : ∀ node : Node, collect (rename f node) = collect node
  | .program body => collectAll_rename body
  | .module _ fields _ => collectAll_rename fields
  | .func _ _ _ body _ => collectAll_rename body
  | .instr id _ args _ => collectAll_renameArgs id args
  | .block _ body _ => collectAll_rename body
  | .loop _ _ body => collectAll_rename body
  | .ifElse _ _ consequent alternate =>
    congrArg₂ (· ++ ·) (collectAll_rename consequent) (collectAll_rename alternate)
  | .global _ init _ => collectAll_rename init
  | .elem _ offset _ => collectAll_rename offset
  | .data _ offset _ => collectAll_rename offset
  | .typeDef _ | .callIndirect _ | .moduleImport _ | .funcImport _ | .moduleMetadata _
  | .moduleName _ | .functionName _ | .localName _ | .sectionMetadata _ | .signature _ | .call _
  | .number _ | .longNumber _ | .float _ | .valtype _ | .identifier _ | .globalType _ | .table _
  | .memory _ | .limits _ | .exportDescr _ | .moduleExport _ | .start _ | .bytes _ => rfl

theorem collectAll_rename : ∀ nodes : List Node, collectAll (renameAll f nodes) = collectAll nodes
  | [] => rfl
  | node :: nodes => congrArg₂ (· ++ ·) (collect_rename node) (collectAll_rename nodes)

end

/-- Inlining leaves the name of a node. -/
theorem identifier?_of_inline {node node' : Node} (inlined : inline types node = .ok node') :
    node'.identifier? = node.identifier? := by
  cases inlines_of_inline inlined <;> rfl

theorem renameArg_eq_self {node : Node} (other : node.identifier? = none) : renameArg f node = node := by
  cases node with
  | identifier => cases other
  | _ => rfl

theorem agrees_inlineArg (node : Node) :
    Agrees (renameArg f) (inline types node) (inline types (renameArg f node)) := by
  cases name : node.identifier? with
  | some id =>
    cases node with
    | identifier => exact .ok rfl
    | _ => cases name
  | none =>
    rw [renameArg_eq_self name]
    cases inlined : inline types node with
    | error e => exact .error e e
    | ok node' =>
      exact .ok (renameArg_eq_self ((identifier?_of_inline inlined).trans name))

theorem agrees_inlineArgs (id : String) (args : List Node) :
    Agrees (renameArgs f id) (inlineAll types args) (inlineAll types (renameArgs f id args)) := by
  unfold renameArgs
  split
  · induction args with
    | nil => exact .ok rfl
    | cons arg args ih =>
      exact (agrees_inlineArg arg).bind fun _ => ih.bind fun _ => .ok rfl
  · exact agrees_refl _

theorem agrees_inlineFuncImport (d : FuncImport) :
    Agrees (fun d => { d with id := d.id.rename f }) (inlineFuncImport types d)
      (inlineFuncImport types { d with id := d.id.rename f }) :=
  (agrees_refl _).bind fun _ => .ok rfl

theorem agrees_inlineImport (decl : ModuleImport) :
    Agrees (rename f) (inline types (.moduleImport decl))
      (inline types (.moduleImport (decl.rename f))) := by
  obtain ⟨m, name, descr, id⟩ := decl
  cases descr with
  | func d => exact (agrees_inlineFuncImport d).bind fun d' => .ok rfl
  | global t => exact .ok rfl
  | memory t => exact .ok rfl
  | table t => exact .ok rfl

mutual

theorem agrees_inline : ∀ node : Node,
    Agrees (rename f) (inline types node) (inline types (rename f node))
  | .program body => (agrees_inlineAll body).bind fun _ => .ok rfl
  | .module _ fields _ => (agrees_inlineAll fields).bind fun _ => .ok rfl
  | .func _ sig _ body _ =>
    (agrees_refl (inlineRef types sig)).bind fun _ => (agrees_inlineAll body).bind fun _ => .ok rfl
  | .instr id _ args _ => (agrees_inlineArgs id args).bind fun _ => .ok rfl
  | .block _ body _ => (agrees_inlineAll body).bind fun _ => .ok rfl
  | .loop _ _ body => (agrees_inlineAll body).bind fun _ => .ok rfl
  | .ifElse _ _ consequent alternate => (agrees_inlineAll consequent).bind fun _ =>
    (agrees_inlineAll alternate).bind fun _ => .ok rfl
  | .callIndirect sig => (agrees_refl (inlineRef types sig)).bind fun _ => .ok rfl
  | .global _ init _ => (agrees_inlineAll init).bind fun _ => .ok rfl
  | .elem _ offset _ => (agrees_inlineAll offset).bind fun _ => .ok rfl
  | .data _ offset _ => (agrees_inlineAll offset).bind fun _ => .ok rfl
  | .moduleImport decl => agrees_inlineImport decl
  | .funcImport d => (agrees_refl (inlineFuncImport types d)).bind fun _ => .ok rfl
  | .typeDef _ | .moduleMetadata _ | .moduleName _ | .functionName _ | .localName _
  | .sectionMetadata _ | .signature _ | .call _ | .number _ | .longNumber _ | .float _ | .valtype _
  | .identifier _ | .globalType _ | .table _ | .memory _ | .limits _ | .exportDescr _
  | .moduleExport _ | .start _ | .bytes _ => .ok rfl

theorem agrees_inlineAll : ∀ nodes : List Node,
    Agrees (renameAll f) (inlineAll types nodes) (inlineAll types (renameAll f nodes))
  | [] => .ok rfl
  | node :: nodes => (agrees_inline node).bind fun _ => (agrees_inlineAll nodes).bind fun _ => .ok rfl

end

theorem argumentNames_of_inline {id : String} {args args' : List Node}
    (inlined : inlineAll types args = .ok args') : argumentNames id args' = argumentNames id args := by
  have names : args'.filterMap identifier? = args.filterMap identifier? := by
    have each := forall₂_of_inlineAll inlined
    clear inlined
    induction each with
    | nil => rfl
    | cons first _ ih =>
      rw [List.filterMap_cons, List.filterMap_cons, identifier?_of_inline first, ih]
  unfold argumentNames
  rw [names]

mutual

/-- Inlining keeps the names. -/
theorem mentions_of_inline {node node' : Node} (inlined : inline types node = .ok node') :
    node'.mentions = node.mentions := by
  cases inlines_of_inline inlined with
  | program inner | module inner => exact mentionsIn_of_inlineAll inner
  | func _ inner | block inner | loop inner | global inner | elem inner | data inner =>
    rw [mentions, mentionsIn_of_inlineAll inner, mentions]
  | instr inner => exact argumentNames_of_inline inner
  | ifElse whenTrue whenFalse =>
    rw [mentions, mentionsIn_of_inlineAll whenTrue, mentionsIn_of_inlineAll whenFalse, mentions]
  | callIndirect | funcImport | importedFunc | other => rfl

/-- Inlining leaves the names that are mentioned. -/
theorem mentionsIn_of_inlineAll : ∀ {nodes nodes' : List Node}, inlineAll types nodes = .ok nodes' →
    mentionsIn nodes' = mentionsIn nodes
  | [], nodes', inlined => by
    obtain rfl := pure_eq_ok_iff.1 inlined
    rfl
  | node :: nodes, nodes', inlined => by
    rw [inlineAll] at inlined
    obtain ⟨first, head, inlined⟩ := bind_eq_ok_iff.1 inlined
    obtain ⟨rest, tail, inlined⟩ := bind_eq_ok_iff.1 inlined
    obtain rfl := pure_eq_ok_iff.1 inlined
    rw [mentionsIn, mentions_of_inline head, mentionsIn_of_inlineAll tail, mentionsIn]

end

end TypeReference

/-! ## Scopes -/

section Matching

variable {p : Space × Identifier → Prop} {s s' : Scope}

/-- Renaming keeps apart what is apart among some names, and brings together nothing else. -/
def Distinguishes (f : String → String) (p : Space × Identifier → Prop) : Prop :=
  ∀ space i j, p (space, i) → p (space, j) → ((i.rename f).value = (j.rename f).value ↔ i.value = j.value)

namespace Scope

/-- A scope of renamed names, in which some names have the positions that they had before. -/
structure Matches (f : String → String) (p : Space × Identifier → Prop) (s s' : Scope) : Prop where
  locals : s'.locals = s.locals
  position? : ∀ space id, p (space, id) → space ≠ .local →
    s'.position? space (id.rename f).value = s.position? space id.value

/-- Scopes that match do so inside a construct, whose label is renamed with them. -/
theorem Matches.enter (matching : Matches f p s s') (apart : Distinguishes f p) {label : Identifier}
    (known : p (.label, label)) : Matches f p (s.enter label) (s'.enter (label.rename f)) where
  locals := matching.locals
  position? space id mentioned other := by
    have before := matching.position? space id mentioned other
    cases space with
    | label =>
      have same : ((label.rename f).value == (id.rename f).value) = (label.value == id.value) := by
        rw [Bool.eq_iff_iff, beq_iff_eq, beq_iff_eq]
        exact apart .label label id known mentioned
      show List.findIdx? _ (_ :: s'.labels) = List.findIdx? _ (_ :: s.labels)
      rw [List.findIdx?_cons, List.findIdx?_cons, same]
      exact congrArg (fun n => if label.value == id.value then some 0 else n.map (· + 1)) before
    | _ => exact before

/-- Scopes that match do so around any locals. -/
theorem Matches.withLocals (matching : Matches f p s s') (locals : List (Option String)) :
    Matches f p { s with locals } { s' with locals } where
  locals := rfl
  position? space id mentioned other := by
    have before := matching.position? space id mentioned other
    cases space with
    | «local» => exact absurd rfl other
    | _ => exact before

/-- An index resolves to the same position after renaming. -/
theorem Matches.index (matching : Matches f p s s') (space : Space) (other : space ≠ .local)
    (i : Index) (mentioned : ∀ id ∈ i.identifier?, p (space, id)) :
    Agrees (Index.rename f) (s.index space i) (s'.index space (i.rename f)) := by
  cases i with
  | number n => exact .ok rfl
  | identifier id =>
    have same := matching.position? space id (mentioned id rfl) other
    unfold Scope.index Index.rename Scope.number
    dsimp only
    rw [same]
    cases s.position? space id.value with
    | some n => exact .ok rfl
    | none => exact .error _ _

theorem Matches.indices (matching : Matches f p s s') (space : Space) (other : space ≠ .local)
    (is : List Index) (mentioned : ∀ id ∈ is.filterMap Index.identifier?, p (space, id)) :
    Agrees (List.map (Index.rename f)) (s.indices space is)
      (s'.indices space (is.map (Index.rename f))) :=
  agrees_mapM fun i inside => matching.index space other i fun id here =>
    mentioned id (List.mem_filterMap.2 ⟨i, inside, here⟩)

/-- An argument resolves to the same position after renaming. -/
theorem Matches.arg (matching : Matches f p s s') (space : Space) (other : space ≠ .local)
    (node : Node) (mentioned : ∀ id ∈ node.identifier?, p (space, id)) :
    Agrees (renameArg f) (s.arg space node) (s'.arg space (renameArg f node)) := by
  cases node with
  | identifier id =>
    have same := matching.position? space id (mentioned id rfl) other
    unfold Scope.arg renameArg Scope.number
    dsimp only
    rw [same]
    cases s.position? space id.value with
    | some n => exact .ok rfl
    | none => exact .error _ _
  | _ => exact .ok rfl

/-- First arguments resolve to the same positions after renaming. -/
theorem Matches.firstArg (matching : Matches f p s s') (space : Space) (other : space ≠ .local)
    (args : List Node) (mentioned : ∀ id ∈ args.filterMap identifier?, p (space, id)) :
    Agrees (List.map (renameArg f)) (s.firstArg space args)
      (s'.firstArg space (args.map (renameArg f))) := by
  cases args with
  | nil => exact .ok rfl
  | cons arg args =>
    have first := matching.arg space other arg fun id here =>
      mentioned id (List.mem_filterMap.2 ⟨arg, List.mem_cons_self, here⟩)
    exact first.bind fun _ => .ok rfl

/-- The names of locals stay, so that a reference to one has its position. -/
theorem Matches.localArg (matching : Matches f p s s') (node : Node) :
    s'.arg .local node = s.arg .local node := by
  cases node with
  | identifier id =>
    have same : s'.position? .local id.value = s.position? .local id.value :=
      congrArg (positionOf? · id.value) matching.locals
    unfold Scope.arg Scope.number
    dsimp only
    rw [same]
  | _ => rfl

/-- Locals are not renamed. -/
theorem Matches.localFirstArg (matching : Matches f p s s') (args : List Node) :
    s'.firstArg .local args = s.firstArg .local args := by
  cases args with
  | nil => rfl
  | cons arg args => rw [Scope.firstArg, Scope.firstArg, matching.localArg]

/-- Arguments resolve to the same positions after renaming. -/
theorem Matches.args (matching : Matches f p s s') (id : String) (args : List Node)
    (mentioned : ∀ x ∈ argumentNames id args, p x) :
    Agrees (renameArgs f id) (s.args id args) (s'.args id (renameArgs f id args)) := by
  have names (space : Space) (found : argumentSpace id = some space) :
      ∀ name ∈ args.filterMap identifier?, p (space, name) := fun name inside =>
    mentioned _ (by
      unfold argumentNames
      rw [found]
      exact Space.mem_names.2 ⟨rfl, inside⟩)
  unfold Scope.args
  split
  · exact (matching.localFirstArg args) ▸ agrees_refl _
  · exact (matching.localFirstArg args) ▸ agrees_refl _
  · exact (matching.localFirstArg args) ▸ agrees_refl _
  · exact matching.firstArg .global nofun args (names _ rfl)
  · exact matching.firstArg .global nofun args (names _ rfl)
  · exact agrees_mapM fun arg inside => matching.arg .label nofun arg fun name here =>
      names _ rfl name (List.mem_filterMap.2 ⟨arg, inside, here⟩)
  · exact agrees_mapM fun arg inside => matching.arg .label nofun arg fun name here =>
      names _ rfl name (List.mem_filterMap.2 ⟨arg, inside, here⟩)
  · exact agrees_mapM fun arg inside => matching.arg .label nofun arg fun name here =>
      names _ rfl name (List.mem_filterMap.2 ⟨arg, inside, here⟩)
  · exact .ok rfl

mutual

theorem agrees_instr (apart : Distinguishes f p) : ∀ (node : Node) {s s' : Scope},
    Matches f p s s' → (∀ x ∈ node.mentions, p x) →
      Agrees (Node.rename f) (s.instr node) (s'.instr (node.rename f))
  | .instr id _ args _, _, _, matching, mentioned =>
    (matching.args id args mentioned).bind fun _ => .ok rfl
  | .call i, _, _, matching, mentioned => by
    refine (matching.index .function nofun i fun id here => ?_).bind fun _ => .ok rfl
    exact mentioned _ (Space.mem_names.2 ⟨rfl, Option.mem_toList.2 here⟩)
  | .block label body _, _, _, matching, mentioned =>
    have known := List.forall_mem_append.1 mentioned
    have inside := matching.enter apart (known.1 _ List.mem_cons_self)
    (agrees_body apart body inside known.2).bind fun _ => .ok rfl
  | .loop label _ body, _, _, matching, mentioned =>
    have known := List.forall_mem_append.1 mentioned
    have inside := matching.enter apart (known.1 _ List.mem_cons_self)
    (agrees_body apart body inside known.2).bind fun _ => .ok rfl
  | .ifElse label _ consequent alternate, _, _, matching, mentioned =>
    have known := List.forall_mem_append.1 mentioned
    have arms := List.forall_mem_append.1 known.2
    have inside := matching.enter apart (known.1 _ List.mem_cons_self)
    (agrees_body apart consequent inside arms.1).bind fun _ =>
      (agrees_body apart alternate inside arms.2).bind fun _ => .ok rfl
  | .program _, _, _, _, _ | .module .., _, _, _, _ | .func .., _, _, _, _
  | .callIndirect _, _, _, _, _ | .global .., _, _, _, _ | .elem .., _, _, _, _
  | .data .., _, _, _, _ | .moduleImport _, _, _, _, _ | .funcImport _, _, _, _, _
  | .moduleMetadata _, _, _, _, _ | .moduleName _, _, _, _, _ | .functionName _, _, _, _, _
  | .localName _, _, _, _, _ | .sectionMetadata _, _, _, _, _ | .typeDef _, _, _, _, _
  | .signature _, _, _, _, _ | .number _, _, _, _, _ | .longNumber _, _, _, _, _
  | .float _, _, _, _, _ | .valtype _, _, _, _, _ | .identifier _, _, _, _, _
  | .globalType _, _, _, _, _ | .table _, _, _, _, _ | .memory _, _, _, _, _
  | .limits _, _, _, _, _ | .exportDescr _, _, _, _, _ | .moduleExport _, _, _, _, _
  | .start _, _, _, _, _ | .bytes _, _, _, _, _ => .ok rfl

theorem agrees_body (apart : Distinguishes f p) : ∀ (nodes : List Node) {s s' : Scope},
    Matches f p s s' → (∀ x ∈ mentionsIn nodes, p x) →
      Agrees (renameAll f) (s.body nodes) (s'.body (renameAll f nodes))
  | [], _, _, _, _ => .ok rfl
  | node :: nodes, _, _, matching, mentioned =>
    have known := List.forall_mem_append.1 mentioned
    (agrees_instr apart node matching known.1).bind fun _ =>
      (agrees_body apart nodes matching known.2).bind fun _ => .ok rfl

end

theorem agrees_field (apart : Distinguishes f p) (matching : Matches f p s s') (node : Node)
    (mentioned : ∀ x ∈ node.mentions, p x) :
    Agrees (Node.rename f) (s.field node) (s'.field (node.rename f)) := by
  cases node with
  | func name sig locals body metadata =>
    have known := List.forall_mem_append.1 mentioned
    exact (agrees_body apart body (matching.withLocals _) known.2).bind fun _ => .ok rfl
  | start i =>
    refine (matching.index .function nofun i fun id here => ?_).bind fun _ => .ok rfl
    exact mentioned _ (Space.mem_names.2 ⟨rfl, Option.mem_toList.2 here⟩)
  | moduleExport e =>
    have outside : exportSpace e.descr.kind ≠ .local := by
      cases e.descr.kind <;> nofun
    refine (matching.index _ outside e.descr.id fun id here => ?_).bind fun _ => .ok rfl
    exact mentioned _ (Space.mem_names.2 ⟨rfl, Option.mem_toList.2 here⟩)
  | global type init name =>
    have known := List.forall_mem_append.1 mentioned
    exact (agrees_body apart init matching known.2).bind fun _ => .ok rfl
  | table t =>
    have known := List.forall_mem_append.1 mentioned
    refine (matching.indices .function nofun t.elements fun id here => ?_).bind fun _ => .ok rfl
    exact known.2 _ (Space.mem_names.2 ⟨rfl, here⟩)
  | elem target offset funcs =>
    have known := List.forall_mem_append.1 mentioned
    have rest := List.forall_mem_append.1 known.2
    refine (matching.index .table nofun target fun id here => ?_).bind fun _ =>
      (agrees_body apart offset matching rest.1).bind fun _ =>
        (matching.indices .function nofun funcs fun id here => ?_).bind fun _ => .ok rfl
    · exact known.1 _ (Space.mem_names.2 ⟨rfl, Option.mem_toList.2 here⟩)
    · exact rest.2 _ (Space.mem_names.2 ⟨rfl, here⟩)
  | data target offset init =>
    have known := List.forall_mem_append.1 mentioned
    refine (matching.index .memory nofun target fun id here => ?_).bind fun _ =>
      (agrees_body apart offset matching known.2).bind fun _ => .ok rfl
    exact known.1 _ (Space.mem_names.2 ⟨rfl, Option.mem_toList.2 here⟩)
  | _ => exact .ok rfl

end Scope

/-! ## Modules -/

/-- The names of a space before and after renaming: both or neither are a name that occurs. -/
def SameName (f : String → String) (p : Space × Identifier → Prop) (space : Space)
    (name name' : Option String) : Prop :=
  ∀ id, p (space, id) → (name' = some (id.rename f).value ↔ name = some id.value)

/-- A renaming that tells names apart keeps which of them are the same. -/
theorem sameName_map (apart : Distinguishes f p) {space : Space} (id : Option Identifier)
    (known : ∀ x ∈ space.names id.toList, p x) : SameName f p space (id.map Identifier.value)
      ((id.map (·.rename f)).map Identifier.value) := by
  intro name mentioned
  cases id with
  | none => exact ⟨nofun, nofun⟩
  | some id =>
    simp only [Option.map_some, Option.some.injEq]
    exact apart space id name (known _ List.mem_cons_self) mentioned

/-- A name has its position among renamed names too. -/
theorem positionOf?_congr {space : Space} {names names' : List (Option String)}
    (each : List.Forall₂ (SameName f p space) names names') {id : Identifier}
    (mentioned : p (space, id)) :
    positionOf? names' (id.rename f).value = positionOf? names id.value := by
  induction each with
  | nil => rfl
  | @cons name name' _ _ first _ ih =>
    have same : (name' == some (id.rename f).value) = (name == some id.value) := by
      rw [Bool.eq_iff_iff, beq_iff_eq, beq_iff_eq]
      exact first id mentioned
    unfold positionOf? at ih ⊢
    rw [List.findIdx?_cons, List.findIdx?_cons, same, ih]

/-- The names of a field correspond to those of the renamed field. -/
theorem sameNames_ofField (apart : Distinguishes f p) (node : Node)
    (mentioned : ∀ x ∈ node.mentions, p x) (space : Space) :
    List.Forall₂ (SameName f p space) ((Namespaces.ofField node).names space)
      ((Namespaces.ofField (node.rename f)).names space) := by
  cases node with
  | func name sig locals body metadata =>
    have known := (List.forall_mem_append.1 mentioned).1
    cases space with
    | function => exact .cons (sameName_map apart (some name) known) .nil
    | _ => exact .nil
  | global type init name =>
    have known := (List.forall_mem_append.1 mentioned).1
    cases space with
    | global => exact .cons (sameName_map apart name known) .nil
    | _ => exact .nil
  | memory m =>
    cases space with
    | memory => exact .cons (sameName_map apart m.id mentioned) .nil
    | _ => exact .nil
  | table t =>
    have known := (List.forall_mem_append.1 mentioned).1
    cases space with
    | table => exact .cons (sameName_map apart t.name known) .nil
    | _ => exact .nil
  | moduleImport decl =>
    obtain ⟨m, field, descr, id⟩ := decl
    cases descr with
    | func d =>
      cases space with
      | function => exact .cons (sameName_map apart (some d.id) mentioned) .nil
      | _ => exact .nil
    | global t =>
      cases space with
      | global => exact .cons (sameName_map apart id mentioned) .nil
      | _ => exact .nil
    | memory m =>
      cases space with
      | memory => exact .cons (sameName_map apart m.id mentioned) .nil
      | _ => exact .nil
    | table t =>
      cases space with
      | table => exact .cons (sameName_map apart t.name mentioned) .nil
      | _ => exact .nil
  | _ => cases space <;> exact .nil

/-- The names of namespaces, put together, follow each other. -/
theorem names_append (a b : Namespaces) (space : Space) :
    (a.append b).names space = a.names space ++ b.names space := by
  cases space <;> rfl

/-- The names of fields correspond to those of the renamed fields. -/
theorem sameNames_ofFields (apart : Distinguishes f p) (fields : List Node)
    (mentioned : ∀ x ∈ mentionsIn fields, p x) (space : Space) :
    List.Forall₂ (SameName f p space) ((Namespaces.ofFields fields).names space)
      ((Namespaces.ofFields (renameAll f fields)).names space) := by
  induction fields with
  | nil => cases space <;> exact .nil
  | cons field fields ih =>
    have known := List.forall_mem_append.1 mentioned
    have one (a : Node) (as : List Node) : (Namespaces.ofFields (a :: as)).names space =
        (Namespaces.ofField a).names space ++ (Namespaces.ofFields as).names space :=
      names_append ..
    rw [renameAll, one, one]
    exact List.rel_append (sameNames_ofField apart field known.1 space) (ih known.2)

/-- The scope of a module has the same positions under the new names. -/
theorem matches_ofFields (apart : Distinguishes f p) (fields : List Node)
    (mentioned : ∀ x ∈ mentionsIn fields, p x) :
    Scope.Matches f p ⟨Namespaces.ofFields fields, [], []⟩
      ⟨Namespaces.ofFields (renameAll f fields), [], []⟩ where
  locals := rfl
  position? space id known other := by
    have same := positionOf?_congr (sameNames_ofFields apart fields mentioned space) known
    cases space with
    | «local» => exact absurd rfl other
    | label => rfl
    | _ => exact same

end Matching

namespace Module

/-- The names that a module defines or refers to, except for those of types and locals. -/
def mentions (m : Module) : List (Space × Identifier) := mentionsIn m.fields

/-- The new names of generated ones are spelled nowhere, and different names stay different. -/
structure Fresh (f : String → String) (m : Module) : Prop where
  injective : ∀ x ∈ m.mentions, ∀ y ∈ m.mentions, x.1 = y.1 → x.2.isSynthesized →
    y.2.isSynthesized → f x.2.value = f y.2.value → x.2.value = y.2.value
  unspelled : ∀ x ∈ m.mentions, ∀ y ∈ m.mentions, x.1 = y.1 → x.2.isSynthesized →
    ¬ y.2.isSynthesized → f x.2.value ≠ y.2.value

/-- No name is spelled like a generated one of its space. -/
def Hygienic (m : Module) : Prop :=
  ∀ x ∈ m.mentions, ∀ y ∈ m.mentions, x.1 = y.1 → x.2.isSynthesized → ¬ y.2.isSynthesized →
    x.2.value ≠ y.2.value

/-- A renaming to fresh names tells the names of a hygienic module apart. -/
theorem distinguishes_of_fresh {m : Module} (fresh : m.Fresh f) (hygienic : m.Hygienic) :
    Distinguishes f (· ∈ m.mentions) := by
  intro space i j here there
  unfold Identifier.rename
  split_ifs with generated generated' generated'
  · exact ⟨fresh.injective _ here _ there rfl generated generated', congrArg f⟩
  · exact iff_of_false (fresh.unspelled _ here _ there rfl generated generated')
      (hygienic _ here _ there rfl generated generated')
  · exact iff_of_false (fresh.unspelled _ there _ here rfl generated' generated).symm
      (hygienic _ there _ here rfl generated' generated).symm
  · exact Iff.rfl

/-- A module without clashes resolves to the same numbers whatever names are generated. -/
theorem agrees_rename {m : Module} (fresh : m.Fresh f) (hygienic : m.Hygienic) :
    Agrees (rename f) m.resolve (m.rename f).resolve := by
  have apart := distinguishes_of_fresh fresh hygienic
  have types : TypeReference.collectAll (m.rename f).fields = TypeReference.collectAll m.fields :=
    TypeReference.collectAll_rename m.fields
  have inlines : Agrees (rename f) m.inlineTypes (m.rename f).inlineTypes := by
    unfold inlineTypes
    rw [types]
    exact (TypeReference.agrees_inlineAll m.fields).bind fun _ => .ok rfl
  refine inlines.bind_of_ok fun inlined here => ?_
  have mentioned : ∀ x ∈ mentionsIn inlined.fields, x ∈ m.mentions := by
    obtain ⟨fields, inner, here⟩ := bind_eq_ok_iff.1 here
    obtain rfl := pure_eq_ok_iff.1 here
    rw [TypeReference.mentionsIn_of_inlineAll inner]
    exact fun _ inside => inside
  have matching := matches_ofFields apart inlined.fields mentioned
  have each : Agrees (List.map (Node.rename f))
      (inlined.fields.mapM (Scope.field ⟨Namespaces.ofFields inlined.fields, [], []⟩))
      ((inlined.fields.map (Node.rename f)).mapM
        (Scope.field ⟨Namespaces.ofFields (renameAll f inlined.fields), [], []⟩)) :=
    agrees_mapM fun field listed => Scope.agrees_field apart matching field fun x inside =>
      mentioned x ((mentionsIn_eq_flatMap _).symm ▸ List.mem_flatMap.2 ⟨field, listed, inside⟩)
  rw [← renameAll_eq_map] at each
  exact each.bind fun fields =>
    .ok (congrArg (fun fields => { inlined with fields }) (renameAll_eq_map f fields))

end Module

/-- Renaming a program renames its module. -/
theorem Node.module?_rename (node : Node) :
    (node.rename f).module? = node.module?.map (Module.rename f) := by
  cases node <;> rfl

/-- A program whose modules have no clashes resolves to the same numbers whatever names are
generated. -/
theorem Program.agrees_resolve_rename {p : Program}
    (fresh : ∀ node ∈ p.body, ∀ m ∈ node.module?, m.Fresh f)
    (hygienic : ∀ node ∈ p.body, ∀ m ∈ node.module?, m.Hygienic) :
    Agrees (rename f) p.resolve (p.rename f).resolve := by
  have each : Agrees (renameAll f) (Program.mapModules Module.resolve p.body)
      (Program.mapModules Module.resolve (renameAll f p.body)) := by
    obtain ⟨body⟩ := p
    dsimp only at fresh hygienic ⊢
    induction body with
    | nil => exact .ok rfl
    | cons node nodes ih =>
      have rest := ih (fun _ inside => fresh _ (List.mem_cons_of_mem _ inside))
        fun _ inside => hygienic _ (List.mem_cons_of_mem _ inside)
      rw [renameAll, Program.mapModules, Program.mapModules, module?_rename]
      generalize Program.mapModules Module.resolve nodes = later,
        Program.mapModules Module.resolve (renameAll f nodes) = later' at rest ⊢
      cases here : node.module? with
      | none =>
        cases rest with
        | ok same => exact .ok (same ▸ rfl)
        | error e e' => exact .error e e'
      | some m =>
        have first := Module.agrees_rename (fresh node List.mem_cons_self m here)
          (hygienic node List.mem_cons_self m here)
        dsimp only [Option.map_some]
        generalize m.resolve = now, (m.rename f).resolve = now' at first ⊢
        cases first with
        | error e e' => exact .error e e'
        | ok same => cases rest with
          | ok same' => exact .ok (same ▸ same' ▸ rfl)
          | error e e' => exact .error e e'
  exact each.bind fun _ => .ok rfl

/-- A module that exports its function, in which a branch leaves two blocks, one of them without a
label of its own. -/
def nestedBlocks : Program :=
  let body := [.block (.ofString "x") [.block (.synthesized "block_0")
    [.instr "br" none [.identifier (.ofString "x")] none] none] none]
  ⟨[.module none [.func (.synthesized "func_0") (.inline ⟨[], []⟩) [] body none,
    .moduleExport ⟨"f", .func, .identifier (.synthesized "func_0")⟩] none]⟩

theorem agrees_resolve_rename_nestedBlocks :
    Wat.parse "(module (func (export \"f\") (block $x (block (br $x)))))" = .ok nestedBlocks ∧
    Agrees (Program.rename (" " ++ ·)) nestedBlocks.resolve
      (nestedBlocks.rename (" " ++ ·)).resolve := by
  refine ⟨(Wat.parse_of_toList String.toList_ofList).trans (by decide +kernel), Program.agrees_resolve_rename ?_ ?_⟩
  · intro node listed m here
    obtain rfl := List.mem_singleton.1 listed
    cases here
    exact ⟨by decide +kernel, by decide +kernel⟩
  · intro node listed m here
    obtain rfl := List.mem_singleton.1 listed
    cases here
    unfold Module.Hygienic
    decide +kernel

/-- A function that has the name generated for another one, and an export of one of the two. -/
def namesakes (name : Identifier) (exported : Index) : Program :=
  let returning (name : Identifier) (n : Int) (raw : String) : Node :=
    .func name (.inline ⟨[], [.i32]⟩) [] [.instr "const" (some .i32) [.number ⟨n, raw⟩] none] none
  ⟨[.module none [returning (.ofString "func_0") 1 "1", returning name 2 "2",
    .moduleExport ⟨"f", .func, exported⟩] none]⟩

/-- The text of `namesakes`. -/
def namesakesText : String :=
  "(module (func $func_0 (result i32) (i32.const 1)) " ++
    "(func (export \"f\") (result i32) (i32.const 2)))"

/-- A source can spell a name that is generated for something else, whose export then misses it. -/
theorem not_agrees_resolve_rename_of_parse : ¬ ∀ (source : String) (p : Program) (f : String → String),
    Wat.parse source = .ok p → (∀ node ∈ p.body, ∀ m ∈ node.module?, m.Fresh f) →
      Agrees (Program.rename f) p.resolve (p.rename f).resolve := by
  intro all
  let name : Identifier := .synthesized "func_0"
  have parsed : Wat.parse namesakesText = .ok (namesakes name (.identifier name)) :=
    (Wat.parse_of_toList (Wat.toList_append_ofList String.toList_ofList _)).trans (by decide +kernel)
  have fresh : ∀ node ∈ (namesakes name (.identifier name)).body, ∀ m ∈ node.module?,
      m.Fresh fun _ => "fresh" := by
    intro node listed m here
    obtain rfl := List.mem_singleton.1 listed
    cases here
    exact ⟨by decide +kernel, by decide +kernel⟩
  have resolved : (namesakes name (.identifier name)).resolve =
      .ok (namesakes name (.number (.ofInt 0))) := rfl
  have renamed : ((namesakes name (.identifier name)).rename fun _ => "fresh").resolve =
      .ok (namesakes (.synthesized "fresh") (.number (.ofInt 1))) := rfl
  obtain ⟨q, same, eq⟩ := (all _ _ _ parsed fresh).ok_iff.1 renamed
  cases resolved.symm.trans same
  cases eq

end WasmEngine
