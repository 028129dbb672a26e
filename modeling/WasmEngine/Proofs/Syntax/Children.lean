import WasmEngine.Syntax.Traversal

/-!
# The children of a node

A walk passes the children of a node in a fixed order, each alone or as an element of a list.  Children
are smaller than their parent, so trees can be taken apart by them, and every tree has a number of
levels.
-/

namespace WasmEngine

/-- A node directly below another, and whether it stands in a list there. -/
structure Child where
  node : Node
  inList : Bool

namespace Child

/-- Nodes that stand in a list. -/
def listed (nodes : List Node) : List Child := nodes.map (⟨·, true⟩)

/-- Nodes that stand alone. -/
def alone (nodes : List Node) : List Child := nodes.map (⟨·, false⟩)

/-- What is listed is among the nodes. -/
theorem mem_listed {child : Child} {nodes : List Node} (inside : child ∈ listed nodes) :
    child.node ∈ nodes := by
  obtain ⟨node, mem, rfl⟩ := List.mem_map.1 inside
  exact mem

/-- What stands alone is among the nodes. -/
theorem mem_alone {child : Child} {nodes : List Node} (inside : child ∈ alone nodes) :
    child.node ∈ nodes := by
  obtain ⟨node, mem, rfl⟩ := List.mem_map.1 inside
  exact mem

/-- A list of nodes that are all smaller than some size. -/
def Below (size : Nat) (l : List Child) : Prop := ∀ child ∈ l, sizeOf child.node < size

theorem below_nil (size : Nat) : Below size [] := by
  intro child inside
  cases inside

/-- Children below a size, in sequence, are below it. -/
theorem Below.append {size : Nat} {l l' : List Child} (first : Below size l) (rest : Below size l') :
    Below size (l ++ l') := by
  intro child inside
  rcases List.mem_append.1 inside with inside | inside
  · exact first child inside
  · exact rest child inside

/-- Nodes of a list are below every size that the list is. -/
theorem below_listed {size : Nat} {nodes : List Node} (le : sizeOf nodes ≤ size) :
    Below size (listed nodes) := by
  intro child inside
  have := List.sizeOf_lt_of_mem (mem_listed inside)
  omega

/-- A node is below every larger size. -/
theorem below_alone {size : Nat} {node : Node} (lt : sizeOf node < size) :
    Below size (alone [node]) := by
  intro child inside
  rwa [List.mem_singleton.1 (mem_alone inside)]

theorem below_each {α : Type} [SizeOf α] {size : Nat} {wrap : α → Node}
    (wrapped : ∀ a, sizeOf (wrap a) ≤ 1 + sizeOf a) {l : List α} (lt : sizeOf l < size) :
    Below size (alone (l.map wrap)) := by
  intro child inside
  obtain ⟨a, mem, eq⟩ := List.mem_map.1 (mem_alone inside)
  have := List.sizeOf_lt_of_mem mem
  have := wrapped a
  rw [← eq]
  omega

theorem below_optional {α : Type} [SizeOf α] {size : Nat} {wrap : α → Node}
    (wrapped : ∀ a, sizeOf (wrap a) ≤ 1 + sizeOf a) {o : Option α} (lt : sizeOf o < size) :
    Below size (alone (o.toList.map wrap)) := by
  cases o with
  | none => exact fun child inside => nomatch inside
  | some a =>
    have := wrapped a
    refine below_alone ?_
    simp at lt
    omega

end Child

namespace Node

open Child

/-- The signature of a function as a node. -/
def ofSignatureRef : SignatureRef → Node
  | .inline s => signature s
  | .ref i => ofIndex i

/-- The description of an import as a node. -/
def ofImportDescr : ImportDescr → Node
  | .func d => funcImport d
  | .global t => globalType t
  | .memory m => memory m
  | .table t => table t

/-- The nodes directly below a node, in the order of the walk. -/
def children : Node → List Child
  | program body => listed body
  | module _ fields metadata => listed fields ++ alone (metadata.toList.map moduleMetadata)
  | moduleMetadata m =>
    alone (m.sections.map sectionMetadata) ++ (alone (m.functionNames.map functionName) ++
      (alone (m.localNames.map localName) ++ alone (m.moduleName.toList.map moduleName)))
  | sectionMetadata s => alone [number s.size] ++ alone [number s.vectorSize]
  | typeDef t => alone (t.id.toList.map identifier) ++ alone [signature t.functype]
  | func name sig _ body _ => alone [identifier name] ++ (alone [ofSignatureRef sig] ++ listed body)
  | instr _ _ args _ => listed args
  | block label body _ => alone [identifier label] ++ listed body
  | loop label _ body => alone [identifier label] ++ listed body
  | ifElse label _ consequent alternate =>
    alone [identifier label] ++ (listed consequent ++ listed alternate)
  | call i => alone [ofIndex i]
  | callIndirect sig => alone [ofSignatureRef sig]
  | global type init name =>
    alone [globalType type] ++ (listed init ++ alone (name.toList.map identifier))
  | table t =>
    alone [limits t.limits] ++ (alone (t.name.toList.map identifier) ++ alone (t.elements.map ofIndex))
  | memory m => alone [limits m.limits] ++ alone (m.id.toList.map identifier)
  | funcImport d => alone [identifier d.id] ++ alone [ofSignatureRef d.signature]
  | moduleImport decl => alone [ofImportDescr decl.descr]
  | exportDescr d => alone [ofIndex d.id]
  | moduleExport e => alone [exportDescr e.descr]
  | start i => alone [ofIndex i]
  | elem target offset funcs =>
    alone [ofIndex target] ++ (listed offset ++ alone (funcs.map ofIndex))
  | data target offset init => alone [ofIndex target] ++ (listed offset ++ alone [bytes init])
  | _ => []

theorem sizeOf_ofIndex (i : Index) : sizeOf (ofIndex i) = sizeOf i := by
  cases i <;> simp [ofIndex]

theorem sizeOf_ofSignatureRef (sig : SignatureRef) : sizeOf (ofSignatureRef sig) ≤ sizeOf sig := by
  cases sig <;> simp [ofSignatureRef, sizeOf_ofIndex]

theorem sizeOf_ofImportDescr (descr : ImportDescr) :
    sizeOf (ofImportDescr descr) = sizeOf descr := by
  cases descr <;> simp [ofImportDescr]

theorem sizeOf_pos (nodes : List Node) : 0 < sizeOf nodes := by
  cases nodes with
  | nil =>
    rw [List.nil.sizeOf_spec]
    exact Nat.one_pos
  | cons node nodes =>
    rw [List.cons.sizeOf_spec]
    omega

/-- A child is smaller than its parent. -/
theorem sizeOf_lt_of_mem_children {node : Node} {child : Child} (below : child ∈ node.children) :
    sizeOf child.node < sizeOf node := by
  suffices smaller : Below (sizeOf node) node.children from smaller child below
  cases node with
  | program body => exact below_listed (by simp)
  | module id fields metadata =>
    refine .append (below_listed ?_) (below_optional (fun m => by simp) ?_) <;> rw [module.sizeOf_spec] <;> omega
  | moduleMetadata m =>
    obtain ⟨sections, functionNames, localNames, moduleName⟩ := m
    refine .append (below_each ?_ ?_) (.append (below_each ?_ ?_)
      (.append (below_each ?_ ?_) (below_optional ?_ ?_))) <;> simp <;> omega
  | sectionMetadata s =>
    obtain ⟨title, startOffset, size, vectorSize⟩ := s
    refine .append (below_alone ?_) (below_alone ?_) <;>
      simp only [number.sizeOf_spec, sectionMetadata.sizeOf_spec, SectionMetadata.mk.sizeOf_spec] <;> omega
  | typeDef t =>
    obtain ⟨id, functype⟩ := t
    refine .append (below_optional (fun id => by simp) ?_) (below_alone ?_) <;>
      simp only [signature.sizeOf_spec, typeDef.sizeOf_spec, TypeDef.mk.sizeOf_spec] <;> omega
  | func name sig locals body metadata =>
    have := sizeOf_ofSignatureRef sig
    have := sizeOf_pos body
    refine .append (below_alone ?_) (.append (below_alone ?_) (below_listed ?_)) <;> simp <;> omega
  | instr id object args memArg =>
    refine below_listed ?_
    simp
    omega
  | block label body result =>
    have := sizeOf_pos body
    refine .append (below_alone ?_) (below_listed ?_) <;> simp <;> omega
  | loop label result body =>
    have := sizeOf_pos body
    refine .append (below_alone ?_) (below_listed ?_) <;> simp
    omega
  | ifElse label result consequent alternate =>
    have := sizeOf_pos consequent
    refine .append (below_alone ?_) (.append (below_listed ?_) (below_listed ?_)) <;> simp <;> omega
  | call i => exact below_alone (by simp [sizeOf_ofIndex])
  | callIndirect sig =>
    have := sizeOf_ofSignatureRef sig
    refine below_alone ?_
    simp
    omega
  | global type init name =>
    have := sizeOf_pos init
    refine .append (below_alone ?_) (.append (below_listed ?_) (below_optional ?_ ?_)) <;> simp <;> omega
  | table t =>
    obtain ⟨elementType, limits, name, elements⟩ := t
    refine .append (below_alone ?_) (.append (below_optional ?_ ?_) (below_each ?_ ?_)) <;>
      simp [sizeOf_ofIndex] <;> omega
  | memory m =>
    obtain ⟨limits, id⟩ := m
    refine .append (below_alone ?_) (below_optional ?_ ?_) <;> simp <;> omega
  | funcImport d =>
    obtain ⟨id, signature⟩ := d
    have := sizeOf_ofSignatureRef signature
    refine .append (below_alone ?_) (below_alone ?_) <;> simp <;> omega
  | moduleImport decl =>
    obtain ⟨module, name, descr, id⟩ := decl
    refine below_alone ?_
    simp [sizeOf_ofImportDescr]
    omega
  | exportDescr d =>
    obtain ⟨kind, id⟩ := d
    refine below_alone ?_
    simp [sizeOf_ofIndex]
    omega
  | moduleExport e =>
    obtain ⟨name, descr⟩ := e
    refine below_alone ?_
    simp only [moduleExport.sizeOf_spec, exportDescr.sizeOf_spec, ModuleExport.mk.sizeOf_spec]
    omega
  | start i => exact below_alone (by simp [sizeOf_ofIndex])
  | elem target offset funcs =>
    have := sizeOf_pos offset
    refine .append (below_alone ?_) (.append (below_listed ?_) (below_each ?_ ?_)) <;>
      simp [sizeOf_ofIndex] <;> omega
  | data target offset init =>
    have := sizeOf_pos offset
    refine .append (below_alone ?_) (.append (below_listed ?_) (below_alone ?_)) <;>
      simp [sizeOf_ofIndex] <;> omega
  | _ => exact below_nil _

/-- What holds of a node as soon as it holds of its children holds of all nodes. -/
@[elab_as_elim]
theorem induction_on_children {motive : Node → Prop} (node : Node)
    (step : ∀ node : Node, (∀ child ∈ node.children, motive child.node) → motive node) :
    motive node :=
  step node fun child _ => induction_on_children child.node step
termination_by sizeOf node
decreasing_by exact sizeOf_lt_of_mem_children ‹_›

/-- A tree of at most so many levels. -/
def Within : Nat → Node → Prop
  | 0, _ => False
  | levels + 1, node => ∀ child ∈ node.children, child.node.Within levels

/-- A tree of some levels has at most more. -/
theorem Within.mono {node : Node} {levels levels' : Nat} (within : node.Within levels)
    (le : levels ≤ levels') : node.Within levels' := by
  induction levels generalizing node levels' with
  | zero => exact within.elim
  | succ levels ih =>
    cases levels' with
    | zero => omega
    | succ levels' => exact fun child below => ih (within child below) (by omega)

/-- The children of a node have a common number of levels. -/
theorem exists_within_of_forall {l : List Child} (each : ∀ child ∈ l, ∃ levels, child.node.Within levels) :
    ∃ levels, ∀ child ∈ l, child.node.Within levels := by
  induction l with
  | nil => exact ⟨0, fun child inside => nomatch inside⟩
  | cons child l ih =>
    obtain ⟨levels, first⟩ := each child List.mem_cons_self
    obtain ⟨levels', rest⟩ := ih fun other inside => each other (List.mem_cons_of_mem _ inside)
    refine ⟨max levels levels', ?_⟩
    intro other inside
    rcases List.mem_cons.1 inside with rfl | inside
    · exact first.mono (Nat.le_max_left _ _)
    · exact (rest other inside).mono (Nat.le_max_right _ _)

/-- Every tree has finitely many levels. -/
theorem exists_within (node : Node) : ∃ levels, node.Within levels := by
  induction node using induction_on_children with | _ node ih
  obtain ⟨levels, all⟩ := exists_within_of_forall ih
  exact ⟨levels + 1, all⟩

end Node

end WasmEngine
