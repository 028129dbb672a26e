import WasmEngine.Text.Quoted
import WasmEngine.Syntax.Node

/-!
# Walking the tree

A walk visits every node once, parents first, and calls the visitors whose key matches: those for
all nodes, then those for the kind of the node, then those for its categories.  A visitor may stop the
walk, and it may remove, replace or surround a node that stands in a list.  Such edits apply before
the walk goes on; the children of a replacement are walked, but neither the replacement itself nor
inserted nodes are visited.
-/

namespace WasmEngine

/-- What a visitor asks for is not possible. -/
inductive TraverseError where
  | unknownVisitorKey (key : String)
  | notInList (kind : NodeKind)
  | cannotShift (kind : NodeKind)
  deriving DecidableEq, Repr

/-- The text of an error. -/
def TraverseError.message : TraverseError → String
  | unknownVisitorKey key =>
    s!"unexpected visitor key {Text.stringLiteral key}: not a node type or union type"
  | notInList kind =>
    s!"{kind.name} is not held in a list; it cannot be removed, replaced or given siblings"
  | cannotShift kind => s!"shift is only supported on SectionMetadata, got {kind.name}"

/-- What a visitor is registered for. -/
inductive VisitorKey where
  | kind (kind : NodeKind)
  | category (category : Category)
  deriving DecidableEq, Repr

namespace VisitorKey

/-- Whether nodes of a kind are meant. -/
def covers : VisitorKey → NodeKind → Bool
  | kind k, k' => k == k'
  | category c, k => k.isIn c

/-- The key of that name; a kind comes before a category of the same name. -/
def parse (s : String) : Except TraverseError VisitorKey :=
  match NodeKind.ofName? s, Category.ofName? s with
  | some k, _ => .ok (kind k)
  | none, some c => .ok (category c)
  | none, none => .error (.unknownVisitorKey s)

end VisitorKey

/-- What the visitors of one node asked for. -/
structure Edits where
  stop : Bool
  removed : Bool
  replacement : Option Node
  before : List Node
  after : List Node

/-- Nothing was asked for. -/
def Edits.none : Edits := ⟨false, false, Option.none, [], []⟩

/-- A node on the walk: the kinds of its ancestors, innermost first, whether it stands in a list, and
what was asked for so far. -/
structure Path where
  node : Node
  ancestors : List NodeKind
  inList : Bool
  edits : Edits

namespace Path

/-- The kind of the node. -/
def kind (p : Path) : NodeKind := p.node.kind

/-- The kind of the parent. -/
def parentKind? (p : Path) : Option NodeKind := p.ancestors.head?

/-- The innermost ancestor that a key covers. -/
def findParent? (p : Path) (key : VisitorKey) : Option NodeKind := p.ancestors.find? key.covers

/-- The number of ancestors. -/
def depth (p : Path) : Nat := p.ancestors.length

/-- Ends the walk after this visitor. -/
def stop (p : Path) : Path := { p with edits := { p.edits with stop := true } }

/-- Changes the edits of a node in a list. -/
def edit (p : Path) (f : Edits → Edits) : Except TraverseError Path :=
  if p.inList then .ok { p with edits := f p.edits } else .error (.notInList p.kind)

/-- Removes the node from its list. -/
def remove (p : Path) : Except TraverseError Path := p.edit ({ · with removed := true })

/-- Puts another node in its place. -/
def replaceWith (p : Path) (node : Node) : Except TraverseError Path :=
  p.edit ({ · with replacement := some node })

/-- Adds a node before it, after those added earlier. -/
def insertBefore (p : Path) (node : Node) : Except TraverseError Path :=
  p.edit fun e => { e with before := e.before ++ [node] }

/-- Adds a node after it, after those added earlier. -/
def insertAfter (p : Path) (node : Node) : Except TraverseError Path :=
  p.edit fun e => { e with after := e.after ++ [node] }

/-- Moves the recorded start of a section, to zero at the least. -/
def shift (p : Path) (delta : Int) : Except TraverseError Path :=
  match p.node with
  | .sectionMetadata s =>
    .ok { p with node := .sectionMetadata { s with startOffset := (s.startOffset + delta).toNat } }
  | node => .error (.cannotShift node.kind)

end Path

/-- A visitor with a state of type `σ`. -/
structure Visitor (σ : Type) where
  key : VisitorKey
  handle : Path → σ → Path × σ

/-- The state of the visitors, and whether one of them stopped the walk. -/
structure Progress (σ : Type) where
  state : σ
  stopped : Bool

/-- A part of a walk; it has no result if it goes deeper than its fuel allows. -/
abbrev WalkM (σ : Type) := StateT (Progress σ) Option

namespace Walk

variable {σ : Type}

/-- The keys that a node of some kind answers to, in the order in which they are served. -/
def keysOf (kind : NodeKind) : List VisitorKey :=
  .category .node :: .kind kind :: kind.categories.map .category

/-- The visitors of a node in the order of their calls. -/
def visitorsOf (visitors : List (Visitor σ)) (kind : NodeKind) : List (Visitor σ) :=
  (keysOf kind).flatMap fun key => visitors.filter (·.key == key)

/-- Calls visitors until one stops the walk or removes the node. -/
def callAll : List (Visitor σ) → Path → σ → Path × σ
  | [], path, state => (path, state)
  | v :: vs, path, state =>
    let (path, state) := v.handle path state
    if path.edits.removed || path.edits.stop then (path, state) else callAll vs path state

/-- Visits one node. -/
def visit (visitors : List (Visitor σ)) (ancestors : List NodeKind) (inList : Bool) (node : Node) :
    WalkM σ Path := fun p =>
  let (path, state) := callAll (visitorsOf visitors node.kind) ⟨node, ancestors, inList, .none⟩ p.state
  some (path, { p with state })

/-- Ends the walk. -/
def halt : WalkM σ Unit := fun p => some ((), { p with stopped := true })

/-- Visits a node that stands alone, then walks its children. -/
def single (visitors : List (Visitor σ)) (ancestors : List NodeKind) (children : Node → WalkM σ Node)
    (node : Node) : WalkM σ Node := do
  if (← get).stopped then return node
  let path ← visit visitors ancestors false node
  if path.edits.stop then
    halt
    return path.node
  children path.node

/-- Visits the nodes of a list in order, walks the children of those that stay, and applies the
edits. -/
def list (visitors : List (Visitor σ)) (ancestors : List NodeKind) (children : Node → WalkM σ Node) :
    List Node → WalkM σ (List Node)
  | [] => return []
  | node :: rest => do
    if (← get).stopped then return node :: rest
    let path ← visit visitors ancestors true node
    let edits := path.edits
    let kept := if edits.removed then [] else [edits.replacement.getD path.node]
    if edits.stop then
      halt
      return edits.before ++ kept ++ edits.after ++ rest
    let kept ← kept.mapM children
    let rest ← list visitors ancestors children rest
    return edits.before ++ kept ++ edits.after ++ rest

/-- Walks the parts of a node: `one` a part that stands alone, `many` a list of nodes. -/
def parts (one : Node → WalkM σ Node) (many : List Node → WalkM σ (List Node)) :
    Node → WalkM σ Node
  | .program body => return .program (← many body)
  | .module id fields metadata => do
    let fields ← many fields
    let metadata ← metadata.mapM moduleMetadata
    return .module id fields metadata
  | .moduleMetadata m => do
    let sections ← m.sections.mapM sectionMetadata
    let functionNames ← m.functionNames.mapM functionName
    let localNames ← m.localNames.mapM localName
    let moduleName ← m.moduleName.mapM moduleName
    return .moduleMetadata { sections, functionNames, localNames, moduleName }
  | .sectionMetadata s => do
    let size ← number s.size
    let vectorSize ← number s.vectorSize
    return .sectionMetadata { s with size, vectorSize }
  | .typeDef t => do
    let id ← t.id.mapM identifier
    let functype ← signature t.functype
    return .typeDef { id, functype }
  | .func name sig locals body metadata => do
    let name ← identifier name
    let sig ← signatureRef sig
    return .func name sig locals (← many body) metadata
  | .instr id object args memArg => return .instr id object (← many args) memArg
  | .block label body result => do
    let label ← identifier label
    return .block label (← many body) result
  | .loop label result body => do
    let label ← identifier label
    return .loop label result (← many body)
  | .ifElse label result consequent alternate => do
    let label ← identifier label
    let consequent ← many consequent
    let alternate ← many alternate
    return .ifElse label result consequent alternate
  | .call i => return .call (← index i)
  | .callIndirect sig => return .callIndirect (← signatureRef sig)
  | .global type init name => do
    let type ← globalType type
    let init ← many init
    let name ← name.mapM identifier
    return .global type init name
  | .table t => do
    let limits ← limits t.limits
    let name ← t.name.mapM identifier
    let elements ← t.elements.mapM index
    return .table { t with limits, name, elements }
  | .memory m => do
    let limits ← limits m.limits
    let id ← m.id.mapM identifier
    return .memory { limits, id }
  | .funcImport d => do
    let id ← identifier d.id
    let signature ← signatureRef d.signature
    return .funcImport { id, signature }
  | .moduleImport decl => do
    match decl.descr with
    | .func d => return .moduleImport { decl with descr := .func (← funcImport d) }
    | .global t => return .moduleImport { decl with descr := .global (← globalType t) }
    | .memory m => return .moduleImport { decl with descr := .memory (← memory m) }
    | .table t => return .moduleImport { decl with descr := .table (← table t) }
  | .exportDescr d => return .exportDescr { d with id := ← index d.id }
  | .moduleExport e => return .moduleExport { e with descr := ← exportDescr e.descr }
  | .start i => return .start (← index i)
  | .elem target offset funcs => do
    let target ← index target
    let offset ← many offset
    let funcs ← funcs.mapM index
    return .elem target offset funcs
  | .data target offset init => do
    let target ← index target
    let offset ← many offset
    let init ← segment init
    return .data target offset init
  | node => return node
where
  /-- Walks a part of a known kind as a node and takes it back out. -/
  part {α : Type} (wrap : α → Node) (unwrap : Node → Option α) (a : α) : WalkM σ α :=
    return (unwrap (← one (wrap a))).getD a
  identifier (id : Identifier) : WalkM σ Identifier :=
    part .identifier (fun | .identifier id => some id | _ => none) id
  number (n : NumberLiteral) : WalkM σ NumberLiteral :=
    part .number (fun | .number n => some n | _ => none) n
  signature (s : Signature) : WalkM σ Signature :=
    part .signature (fun | .signature s => some s | _ => none) s
  globalType (t : GlobalType) : WalkM σ GlobalType :=
    part .globalType (fun | .globalType t => some t | _ => none) t
  limits (l : Limits) : WalkM σ Limits :=
    part .limits (fun | .limits l => some l | _ => none) l
  memory (m : MemoryDef) : WalkM σ MemoryDef :=
    part .memory (fun | .memory m => some m | _ => none) m
  table (t : TableDef) : WalkM σ TableDef :=
    part .table (fun | .table t => some t | _ => none) t
  funcImport (d : FuncImport) : WalkM σ FuncImport :=
    part .funcImport (fun | .funcImport d => some d | _ => none) d
  exportDescr (d : ExportDescr) : WalkM σ ExportDescr :=
    part .exportDescr (fun | .exportDescr d => some d | _ => none) d
  moduleMetadata (m : ModuleMetadata) : WalkM σ ModuleMetadata :=
    part .moduleMetadata (fun | .moduleMetadata m => some m | _ => none) m
  sectionMetadata (s : SectionMetadata) : WalkM σ SectionMetadata :=
    part .sectionMetadata (fun | .sectionMetadata s => some s | _ => none) s
  functionName (n : FunctionName) : WalkM σ FunctionName :=
    part .functionName (fun | .functionName n => some n | _ => none) n
  localName (n : LocalName) : WalkM σ LocalName :=
    part .localName (fun | .localName n => some n | _ => none) n
  moduleName (n : ModuleName) : WalkM σ ModuleName :=
    part .moduleName (fun | .moduleName n => some n | _ => none) n
  segment (values : List UInt8) : WalkM σ (List UInt8) :=
    part .bytes (fun | .bytes values => some values | _ => none) values
  index : Index → WalkM σ Index
    | .number n => return .number (← number n)
    | .identifier id => return .identifier (← identifier id)
  signatureRef : SignatureRef → WalkM σ SignatureRef
    | .inline s => return .inline (← signature s)
    | .ref i => return .ref (← index i)

/-- Walks everything below a node.  The fuel bounds the depth. -/
def children (visitors : List (Visitor σ)) : Nat → List NodeKind → Node → WalkM σ Node
  | 0, _, _ => failure
  | fuel + 1, ancestors, node =>
    let ancestors := node.kind :: ancestors
    let below := children visitors fuel ancestors
    parts (single visitors ancestors below) (list visitors ancestors below) node

end Walk

/-- Walks a node and everything below it.  Gives the edited node and the state of the visitors, or
nothing if the walk goes deeper than `fuel`, which replacements can cause without end. -/
def Node.traverse {σ : Type} (fuel : Nat) (visitors : List (Visitor σ)) (node : Node) (state : σ) :
    Option (Node × σ) :=
  match Walk.single visitors [] (Walk.children visitors fuel []) node ⟨state, false⟩ with
  | some (node, progress) => some (node, progress.state)
  | none => none

/-- The number of nodes that a walk visits and the greatest depth among them. -/
def Node.census (fuel : Nat) (node : Node) : Option (Nat × Nat) :=
  let counter : Visitor (Nat × Nat) :=
    ⟨.category .node, fun path (count, deepest) => (path, count + 1, max deepest path.depth)⟩
  (node.traverse fuel [counter] (0, 0)).map Prod.snd

end WasmEngine
