import Mathlib.Data.List.Forall2
import WasmEngine.Syntax.Node

/-!
# Nodes up to the numbers of their labels

Programs that differ in the numbers of generated labels only.  All else about them is the same, the
generated names of functions, globals, memories and tables included.
-/

namespace WasmEngine

/-! ## Generated labels -/

/-- The name, if it is not spelled as it stands. -/
def Identifier.generated (id : Identifier) : List String := if id.raw = id.value then [] else [id.value]

mutual

/-- The generated labels of the blocks in a node, from left to right. -/
def Node.generatedLabels : Node → List String
  | .block label body _ => label.generated ++ generatedLabelsIn body
  | .loop label _ body => label.generated ++ generatedLabelsIn body
  | .ifElse label _ consequent alternate =>
    label.generated ++ (generatedLabelsIn consequent ++ generatedLabelsIn alternate)
  | .func _ _ _ body _ => generatedLabelsIn body
  | .global _ init _ => generatedLabelsIn init
  | .elem _ offset _ => generatedLabelsIn offset
  | .data _ offset _ => generatedLabelsIn offset
  | .module _ fields _ => generatedLabelsIn fields
  | _ => []

/-- The generated labels of the blocks in nodes, from left to right. -/
def Node.generatedLabelsIn : List Node → List String
  | [] => []
  | node :: nodes => generatedLabels node ++ generatedLabelsIn nodes

end

/-- A spelled name is not generated. -/
theorem Identifier.generated_ofString (name : String) : (Identifier.ofString name).generated = [] :=
  if_pos rfl

/-- A synthesized name generates itself at most. -/
theorem Identifier.count_generated_synthesized_le (name other : String) :
    (Identifier.synthesized name).generated.count other ≤ [name].count other := by
  unfold Identifier.generated
  split
  · exact Nat.zero_le _
  · exact Nat.le_refl _

/-- The generated labels of a list are those of its parts, in order. -/
theorem Node.generatedLabelsIn_append (nodes nodes' : List Node) :
    generatedLabelsIn (nodes ++ nodes') = generatedLabelsIn nodes ++ generatedLabelsIn nodes' := by
  induction nodes with
  | nil => rfl
  | cons node nodes ih => rw [List.cons_append, generatedLabelsIn, generatedLabelsIn, ih, List.append_assoc]

/-! ## Renumbering -/

/-- The same name, or the same generated name with another number. -/
inductive Identifier.Renumbered : Identifier → Identifier → Prop
  | same (id : Identifier) : Renumbered id id
  | number (stem : String) (m n : Nat) :
    Renumbered (.synthesized (stem ++ "_" ++ toString m)) (.synthesized (stem ++ "_" ++ toString n))

/-- The same node, up to the numbers of the labels in it. -/
inductive Node.Renumbered : Node → Node → Prop
  | same (node : Node) : Renumbered node node
  | block {label label' : Identifier} (labels : label.Renumbered label') {body body' : List Node}
    (inside : List.Forall₂ Renumbered body body') (result : Option Valtype) :
    Renumbered (.block label body result) (.block label' body' result)
  | loop {label label' : Identifier} (labels : label.Renumbered label') {body body' : List Node}
    (inside : List.Forall₂ Renumbered body body') (result : Option Valtype) :
    Renumbered (.loop label result body) (.loop label' result body')
  | ifElse {label label' : Identifier} (labels : label.Renumbered label')
    {consequent consequent' alternate alternate' : List Node}
    (whenTrue : List.Forall₂ Renumbered consequent consequent')
    (whenFalse : List.Forall₂ Renumbered alternate alternate') (result : Option Valtype) :
    Renumbered (.ifElse label result consequent alternate) (.ifElse label' result consequent' alternate')
  | func (name : Identifier) (signature : SignatureRef) (locals : List Param) {body body' : List Node}
    (inside : List.Forall₂ Renumbered body body') (metadata : Option FuncMetadata) :
    Renumbered (.func name signature locals body metadata) (.func name signature locals body' metadata)
  | global (type : GlobalType) {init init' : List Node} (inside : List.Forall₂ Renumbered init init')
    (name : Option Identifier) : Renumbered (.global type init name) (.global type init' name)
  | elem (table : Index) {offset offset' : List Node} (inside : List.Forall₂ Renumbered offset offset')
    (funcs : List Index) : Renumbered (.elem table offset funcs) (.elem table offset' funcs)
  | data (memory : Index) {offset offset' : List Node}
    (inside : List.Forall₂ Renumbered offset offset') (init : List UInt8) :
    Renumbered (.data memory offset init) (.data memory offset' init)
  | module (id : Option String) {fields fields' : List Node}
    (inside : List.Forall₂ Renumbered fields fields') (metadata : Option ModuleMetadata) :
    Renumbered (.module id fields metadata) (.module id fields' metadata)

/-- The same nodes in order, up to the numbers of the labels in them. -/
abbrev RenumberedIn : List Node → List Node → Prop := List.Forall₂ Node.Renumbered

/-- The same program, up to the numbers of the labels in it.  No label is generated twice in either
program, so that the numbers of one go with those of the other one to one. -/
structure Program.Renumbered (p p' : Program) : Prop where
  nodes : RenumberedIn p.body p'.body
  once : (Node.generatedLabelsIn p.body).Nodup
  once' : (Node.generatedLabelsIn p'.body).Nodup

theorem RenumberedIn.same (nodes : List Node) : RenumberedIn nodes nodes :=
  List.forall₂_same.2 fun node _ => .same node

/-- Lists renumbered part by part are renumbered. -/
theorem RenumberedIn.append {xs xs' ys ys' : List Node} (first : RenumberedIn xs xs')
    (second : RenumberedIn ys ys') : RenumberedIn (xs ++ ys) (xs' ++ ys') := by
  induction first with
  | nil => exact second
  | cons here _ ih => exact .cons here ih

end WasmEngine
