import WasmEngine.Syntax.Node

/-!
# Deciding whether programs are the same

Nodes are compared constructor by constructor (`Node.same`), so that equality of nodes, modules and programs is
decidable: what a reader makes of a text can be checked by running it.
-/

namespace WasmEngine

namespace Node

mutual

/-- Whether two nodes are the same. -/
def same : Node → Node → Bool
  | program body, program body' => sameAll body body'
  | module id fields metadata, module id' fields' metadata' =>
    id == id' && sameAll fields fields' && metadata == metadata'
  | moduleMetadata metadata, moduleMetadata metadata' => metadata == metadata'
  | moduleName name, moduleName name' => name == name'
  | functionName name, functionName name' => name == name'
  | localName name, localName name' => name == name'
  | sectionMetadata metadata, sectionMetadata metadata' => metadata == metadata'
  | typeDef type, typeDef type' => type == type'
  | func name sig locals body metadata, func name' sig' locals' body' metadata' =>
    name == name' && sig == sig' && locals == locals' && sameAll body body' && metadata == metadata'
  | signature sig, signature sig' => sig == sig'
  | instr id object args memArg, instr id' object' args' memArg' =>
    id == id' && object == object' && sameAll args args' && memArg == memArg'
  | block label body result, block label' body' result' => label == label' && sameAll body body' && result == result'
  | loop label result body, loop label' result' body' => label == label' && result == result' && sameAll body body'
  | ifElse label result consequent alternate, ifElse label' result' consequent' alternate' =>
    label == label' && result == result' && sameAll consequent consequent' && sameAll alternate alternate'
  | call index, call index' => index == index'
  | callIndirect sig, callIndirect sig' => sig == sig'
  | number literal, number literal' => literal == literal'
  | longNumber literal, longNumber literal' => literal == literal'
  | float literal, float literal' => literal == literal'
  | valtype type, valtype type' => type == type'
  | identifier id, identifier id' => id == id'
  | globalType type, globalType type' => type == type'
  | global type init name, global type' init' name' => type == type' && sameAll init init' && name == name'
  | table t, table t' => t == t'
  | memory m, memory m' => m == m'
  | limits l, limits l' => l == l'
  | funcImport descr, funcImport descr' => descr == descr'
  | moduleImport decl, moduleImport decl' => decl == decl'
  | exportDescr descr, exportDescr descr' => descr == descr'
  | moduleExport decl, moduleExport decl' => decl == decl'
  | start index, start index' => index == index'
  | elem t offset funcs, elem t' offset' funcs' =>
    t == t' && sameAll offset offset' && funcs == funcs'
  | data m offset init, data m' offset' init' =>
    m == m' && sameAll offset offset' && init == init'
  | bytes values, bytes values' => values == values'
  | _, _ => false

/-- Whether two lists of nodes are the same. -/
def sameAll : List Node → List Node → Bool
  | [], [] => true
  | node :: nodes, node' :: nodes' => same node node' && sameAll nodes nodes'
  | _, _ => false

end

/-- Nodes that compare equal are equal. -/
theorem eq_of_same : (∀ node node' : Node, same node node' = true → node = node') ∧
    ∀ nodes nodes' : List Node, sameAll nodes nodes' = true → nodes = nodes' := by
  apply same.mutual_induct
  all_goals
    intros
    simp_all only [same, sameAll, Bool.and_eq_true, beq_iff_eq, Bool.false_eq_true, forall_const]

mutual

theorem same_self : ∀ node : Node, same node node = true
  | program body => sameAll_self body
  | module _ fields _ => by simp [same, sameAll_self fields]
  | func _ _ _ body _ => by simp [same, sameAll_self body]
  | instr _ _ args _ => by simp [same, sameAll_self args]
  | block _ body _ => by simp [same, sameAll_self body]
  | loop _ _ body => by simp [same, sameAll_self body]
  | ifElse _ _ consequent alternate => by simp [same, sameAll_self consequent, sameAll_self alternate]
  | global _ init _ => by simp [same, sameAll_self init]
  | elem _ offset _ => by simp [same, sameAll_self offset]
  | data _ offset _ => by simp [same, sameAll_self offset]
  | moduleMetadata _ | moduleName _ | functionName _ | localName _ | sectionMetadata _ | typeDef _ | signature _
  | call _ | callIndirect _ | number _ | longNumber _ | float _ | valtype _ | identifier _ | globalType _ | table _
  | memory _ | limits _ | funcImport _ | moduleImport _ | exportDescr _ | moduleExport _ | start _ | bytes _ => by
    simp [same]

theorem sameAll_self : ∀ nodes : List Node, sameAll nodes nodes = true
  | [] => rfl
  | node :: nodes => by simp [sameAll, same_self node, sameAll_self nodes]

end

/-- Comparing decides equality. -/
theorem same_iff {node node' : Node} : same node node' = true ↔ node = node' :=
  ⟨eq_of_same.1 node node', fun eq => eq ▸ same_self node⟩

instance : DecidableEq Node := fun _ _ => decidable_of_iff _ same_iff

end Node

deriving instance DecidableEq for Func, Module, Program

end WasmEngine
