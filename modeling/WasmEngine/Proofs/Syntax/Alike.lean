import Mathlib.Data.List.Forall2
import WasmEngine.Machine.Store
import WasmEngine.Proofs.Binary.FieldDecoding
import WasmEngine.Syntax.Node

/-!
# Code that does the same

What is decoded of written code is not the same code: labels and parameters have other names, and literals are
spelled as the decoder spells them.  Neither the checker nor the machine looks at these.  If the numbers of
generated labels differ by no amount for any stem, the sequences are equal (`Node.MovedIn.eq`).
-/

namespace WasmEngine

/-- Lists that are related item by item are related at every position. -/
theorem rel_getElem? {α β : Type} {R : α → β → Prop} {as : List α} {bs : List β}
    (each : List.Forall₂ R as bs) (i : Nat) : Option.Rel R as[i]? bs[i]? := by
  induction each generalizing i with
  | nil => exact .none
  | cons first _ ih =>
    cases i with
    | zero => exact .some first
    | succ i => exact ih i

theorem forall₂_set {α β : Type} {R : α → β → Prop} {as : List α} {bs : List β}
    (each : List.Forall₂ R as bs) (i : Nat) {a : α} {b : β} (related : R a b) :
    List.Forall₂ R (as.set i a) (bs.set i b) := by
  induction each generalizing i with
  | nil => exact .nil
  | cons first rest ih =>
    cases i with
    | zero => exact .cons related rest
    | succ i => exact .cons first (ih i)

namespace Node

mutual

/-- An instruction differs from another one at most in the names of labels and parameters and in the spelling of
literals. -/
inductive Alike : Node → Node → Prop
  | instr (id : String) (object : Option Valtype) (args : List Node) (memArg : Option MemArg) :
    Alike (.instr id object args memArg) (.instr id object (respelledIn args) memArg)
  | block {label label' : Identifier} {body body' : List Node} {result : Option Valtype}
    (inside : AlikeIn body body') : Alike (.block label body result) (.block label' body' result)
  | loop {label label' : Identifier} {body body' : List Node} {result : Option Valtype}
    (inside : AlikeIn body body') : Alike (.loop label result body) (.loop label' result body')
  | ifElse {label label' : Identifier} {consequent consequent' alternate alternate' : List Node}
    {result : Option Valtype} (whenTrue : AlikeIn consequent consequent')
    (whenFalse : AlikeIn alternate alternate') :
    Alike (.ifElse label result consequent alternate) (.ifElse label' result consequent' alternate')
  | call (i : Index) : Alike (.call i) (.call i.respelled)
  | callIndirect {s s' : Signature} (type : s'.funcType = s.funcType) :
    Alike (.callIndirect (.inline s)) (.callIndirect (.inline s'))

/-- The instructions of a sequence differ from those of another one at most in these. -/
inductive AlikeIn : List Node → List Node → Prop
  | nil : AlikeIn [] []
  | cons {node node' : Node} {nodes nodes' : List Node} (first : Alike node node')
    (rest : AlikeIn nodes nodes') : AlikeIn (node :: nodes) (node' :: nodes')

end

/-- Lists of nodes are alike when they are so element by element. -/
theorem alikeIn_iff {nodes nodes' : List Node} : AlikeIn nodes nodes' ↔ List.Forall₂ Alike nodes nodes' := by
  constructor
  · intro alike
    induction nodes generalizing nodes' with
    | nil =>
      cases alike
      exact .nil
    | cons node nodes ih =>
      cases alike with
      | cons first rest => exact .cons first (ih rest)
  · intro each
    induction each with
    | nil => exact .nil
    | cons first _ ih => exact .cons first ih

/-- Nodes that are alike have the same instruction name, if any. -/
theorem Alike.instructionName? {node node' : Node} (alike : Alike node node') :
    node'.instructionName? = node.instructionName? := by
  cases alike <;> rfl

/-! ## What is decoded of written code -/

section

variable {ref : Index → Prop} {depth : Nat}

/-- Nodes that differ in labels are alike, if they are so one by one. -/
theorem alikeIn_of_each {nodes nodes' : List Node}
    (each : ∀ node ∈ nodes, ∀ node', node'.unlabelled = node.respelled.unlabelled → Alike node node')
    (same : unlabelledIn nodes' = unlabelledIn (respelledIn nodes)) : AlikeIn nodes nodes' := by
  induction nodes generalizing nodes' with
  | nil =>
    cases nodes' with
    | nil => exact .nil
    | cons => cases same
  | cons node nodes ih =>
    cases nodes' with
    | nil => cases same
    | cons node' nodes' =>
      obtain ⟨first, rest⟩ := List.cons.inj same
      exact .cons (each node List.mem_cons_self node' first)
        (ih (fun other inside => each other (List.mem_cons_of_mem _ inside)) rest)

/-- An encodable node and one that differs from it in labels only are alike. -/
theorem alike_of_unlabelled {node : Node} (encodable : Encodable ref SignatureRef.IsInline depth node)
    {node' : Node} (same : node'.unlabelled = node.respelled.unlabelled) : Alike node node' := by
  induction encodable generalizing node' with
  | instr =>
    cases node' <;> cases same
    exact .instr ..
  | block _ _ ih =>
    cases node' <;> simp only [respelled, unlabelled, reduceCtorEq, block.injEq, true_and] at same
    obtain ⟨body, rfl⟩ := same
    exact .block (alikeIn_of_each ih body)
  | loop _ _ ih =>
    cases node' <;> simp only [respelled, unlabelled, reduceCtorEq, loop.injEq, true_and] at same
    obtain ⟨rfl, body⟩ := same
    exact .loop (alikeIn_of_each ih body)
  | ifElse _ _ _ ihTrue ihFalse =>
    cases node' <;> simp only [respelled, unlabelled, reduceCtorEq, ifElse.injEq, true_and] at same
    obtain ⟨rfl, consequent, alternate⟩ := same
    exact .ifElse (alikeIn_of_each ihTrue consequent) (alikeIn_of_each ihFalse alternate)
  | call =>
    cases node' <;> cases same
    exact .call _
  | callIndirect holds =>
    obtain ⟨s, rfl⟩ := holds
    cases node' <;> cases same
    exact .callIndirect s.funcType_anonymous

/-- Code with a binary form is read as code that does the same. -/
theorem alikeIn_of_codeReads {nodes nodes' : List Node}
    (encodable : ∀ node ∈ nodes, Encodable ref SignatureRef.IsInline depth node)
    (reads : Binary.CodeReads nodes nodes') : AlikeIn nodes nodes' :=
  alikeIn_of_each (fun node inside _ => alike_of_unlabelled (encodable node inside)) reads

end

/-! ## Immediates -/

theorem getElem?_respelledIn (args : List Node) (i : Nat) :
    (respelledIn args)[i]? = args[i]?.map respelled := by
  rw [respelledIn_eq_map, List.getElem?_map]

theorem head?_respelledIn (args : List Node) : (respelledIn args).head? = args.head?.map respelled := by
  rw [respelledIn_eq_map, List.head?_map]

theorem isEmpty_respelledIn (args : List Node) : (respelledIn args).isEmpty = args.isEmpty := by
  rw [respelledIn_eq_map, List.isEmpty_map]

end Node

/-- The spelling of a literal is not looked at. -/
theorem Value.ofLiteral_respelled (t : Valtype) (literal : Node) :
    Value.ofLiteral t literal.respelled = Value.ofLiteral t literal := by
  cases literal <;> cases t <;> rfl

theorem Index.resolved_respelled (i : Index) : i.respelled.resolved = i.resolved := by
  cases i <;> rfl

theorem Index.number?_respelled (i : Index) : i.respelled.number? = i.number? := by
  cases i <;> rfl

/-! ## Other numbers of labels -/

/-- No number is moved. -/
def unmoved : String → Int := fun _ => 0

/-- Two generated labels of a stem whose numbers differ by what `shift` says. -/
def Identifier.Moved (shift : String → Int) (id id' : Identifier) : Prop :=
  ∃ stem, ∃ m n : Nat, id = .synthesized (stem ++ "_" ++ toString m) ∧
    id' = .synthesized (stem ++ "_" ++ toString n) ∧ (m : Int) = n + shift stem

mutual

/-- The same instruction, with the numbers of all labels moved. -/
inductive Node.Moved (shift : String → Int) : Node → Node → Prop
  | instr (id : String) (object : Option Valtype) (args : List Node) (memArg : Option MemArg) :
    Moved shift (.instr id object args memArg) (.instr id object args memArg)
  | call (index : Index) : Moved shift (.call index) (.call index)
  | callIndirect (signature : SignatureRef) : Moved shift (.callIndirect signature) (.callIndirect signature)
  | block {label label' : Identifier} {body body' : List Node} (labels : label.Moved shift label')
    (inside : MovedIn shift body body') (result : Option Valtype) :
    Moved shift (.block label body result) (.block label' body' result)
  | loop {label label' : Identifier} {body body' : List Node} (labels : label.Moved shift label')
    (inside : MovedIn shift body body') (result : Option Valtype) :
    Moved shift (.loop label result body) (.loop label' result body')
  | ifElse {label label' : Identifier} {consequent consequent' alternate alternate' : List Node}
    (labels : label.Moved shift label') (whenTrue : MovedIn shift consequent consequent')
    (whenFalse : MovedIn shift alternate alternate') (result : Option Valtype) :
    Moved shift (.ifElse label result consequent alternate) (.ifElse label' result consequent' alternate')

/-- The same instructions in order, with the numbers of all labels moved. -/
inductive Node.MovedIn (shift : String → Int) : List Node → List Node → Prop
  | nil : MovedIn shift [] []
  | cons {node node' : Node} {nodes nodes' : List Node} (first : Moved shift node node')
    (rest : MovedIn shift nodes nodes') : MovedIn shift (node :: nodes) (node' :: nodes')

end

/-- An identifier moved by nothing is itself. -/
theorem Identifier.Moved.eq {id id' : Identifier} (moved : id.Moved unmoved id') : id' = id := by
  obtain ⟨stem, m, n, rfl, rfl, number⟩ := moved
  rw [unmoved, Int.add_zero, Int.ofNat_inj] at number
  rw [number]

mutual

/-- A node moved by nothing is itself. -/
theorem Node.Moved.eq {node node' : Node} (moved : Moved unmoved node node') : node' = node := by
  cases moved with
  | instr | call | callIndirect => rfl
  | block labels inside => rw [labels.eq, inside.eq]
  | loop labels inside => rw [labels.eq, inside.eq]
  | ifElse labels whenTrue whenFalse => rw [labels.eq, whenTrue.eq, whenFalse.eq]

theorem Node.MovedIn.eq {nodes nodes' : List Node} (moved : MovedIn unmoved nodes nodes') : nodes' = nodes := by
  cases moved with
  | nil => rfl
  | cons first rest => rw [first.eq, rest.eq]

end

/-- Moving keeps the number of nodes. -/
theorem Node.MovedIn.length_eq {shift : String → Int} {nodes nodes' : List Node}
    (moved : MovedIn shift nodes nodes') : nodes'.length = nodes.length := by
  induction nodes generalizing nodes' with
  | nil =>
    cases moved
    rfl
  | cons node nodes ih =>
    cases moved with
    | cons first rest => rw [List.length_cons, List.length_cons, ih rest]

/-- The same field; in a data segment the labels of the offset are moved. -/
inductive Node.OffsetMoved (shift : String → Int) : Node → Node → Prop
  | same (node : Node) (other : node.kind ≠ .data) : OffsetMoved shift node node
  | data (memory : Index) {offset offset' : List Node} (inside : MovedIn shift offset offset')
    (init : List UInt8) : OffsetMoved shift (.data memory offset init) (.data memory offset' init)

/-- The same fields in order, with the labels in the offsets of data segments moved. -/
abbrev Node.OffsetsMoved (shift : String → Int) : List Node → List Node → Prop :=
  List.Forall₂ (OffsetMoved shift)

section Offsets

variable {shift : String → Int} {fields fields' : List Node}

/-- Fields without data are left as they are when offsets are moved. -/
theorem Node.OffsetsMoved.eq_of_forall
    (moved : OffsetsMoved shift fields fields') (others : ∀ node ∈ fields, node.kind ≠ .data) :
    fields' = fields := by
  induction moved with
  | nil => rfl
  | cons first _ ih =>
    obtain ⟨here, there⟩ := List.forall_mem_cons.1 others
    rw [ih there]
    cases first with
    | same => rfl
    | data => exact absurd rfl here

theorem Node.OffsetsMoved.eq (moved : OffsetsMoved unmoved fields fields') : fields' = fields := by
  induction moved with
  | nil => rfl
  | cons first _ ih =>
    rw [ih]
    cases first with
    | same => rfl
    | data _ inside => rw [inside.eq]

theorem Node.OffsetsMoved.of_forall (others : ∀ node ∈ fields, node.kind ≠ .data) :
    OffsetsMoved shift fields fields :=
  List.forall₂_same.2 fun node inside => .same node (others node inside)

end Offsets

end WasmEngine
