import WasmEngine.Machine.Value
import WasmEngine.Opcode
import WasmEngine.Syntax.Resolution

/-!
# Properties of every node

What holds of each instruction and field of a program.  Two such properties are not checked when a
module is validated, since reading and resolving a program ensures them: constants have literals of
their types, and signatures stand in place.
-/

namespace WasmEngine.Node

mutual

/-- A property holds of a node and of the instructions and fields inside it. -/
def Every (p : Node → Prop) : Node → Prop
  | .program body => EveryIn p body
  | .module _ fields _ => EveryIn p fields
  | .func name sig locals body metadata => p (.func name sig locals body metadata) ∧ EveryIn p body
  | .block label body result => p (.block label body result) ∧ EveryIn p body
  | .loop label result body => p (.loop label result body) ∧ EveryIn p body
  | .ifElse label result consequent alternate =>
    p (.ifElse label result consequent alternate) ∧ EveryIn p consequent ∧ EveryIn p alternate
  | .global type init name => p (.global type init name) ∧ EveryIn p init
  | .elem target offset funcs => p (.elem target offset funcs) ∧ EveryIn p offset
  | .data target offset init => p (.data target offset init) ∧ EveryIn p offset
  | node => p node

/-- A property holds of every node of a list and of the instructions and fields inside them. -/
def EveryIn (p : Node → Prop) : List Node → Prop
  | [] => True
  | node :: nodes => Every p node ∧ EveryIn p nodes

end

variable {p : Node → Prop}

@[simp] theorem everyIn_nil : EveryIn p [] := trivial

@[simp] theorem everyIn_cons {node : Node} {nodes : List Node} :
    EveryIn p (node :: nodes) ↔ Every p node ∧ EveryIn p nodes := Iff.rfl

@[simp] theorem everyIn_append {nodes others : List Node} :
    EveryIn p (nodes ++ others) ↔ EveryIn p nodes ∧ EveryIn p others := by
  induction nodes with
  | nil => simp
  | cons node nodes ih => simp [ih, and_assoc]

/-- A property holds throughout a list of trees when it does throughout each. -/
theorem everyIn_iff {nodes : List Node} : EveryIn p nodes ↔ ∀ node ∈ nodes, Every p node := by
  induction nodes with
  | nil => simp
  | cons node nodes ih => simp [ih]

/-- A constant has a literal of its type. -/
def HasLiteral : Node → Prop
  | .instr id (some t) args _ =>
    id = "const" → ∃ literal v, args.head? = some literal ∧ Value.ofLiteral t literal = .ok v
  | _ => True

end Node

/-- Whether a signature stands in place. -/
def SignatureRef.IsInline (sig : SignatureRef) : Prop := ∃ signature, sig = .inline signature

namespace Node

/-- A signature stands in place. -/
def HasSignature : Node → Prop
  | .func _ sig _ _ _ => sig.IsInline
  | .callIndirect sig => sig.IsInline
  | .moduleImport ⟨_, _, .func d, _⟩ => d.signature.IsInline
  | _ => True

/-- A node can run as it is: neither its literal nor its signature is missing. -/
def Explicit (node : Node) : Prop := node.HasLiteral ∧ node.HasSignature

end WasmEngine.Node

/-! ## Constants -/

namespace WasmEngine

/-- What stands after the byte of a constant. -/
def Immediate.literal : Valtype → Immediate
  | .i32 => .i32
  | .i64 => .i64
  | .f32 => .f32
  | .f64 => .f64

/-- Whether a literal stands after the byte. -/
def Immediate.isLiteral : Immediate → Bool
  | i32 | i64 | f32 | f64 => true
  | _ => false

theorem Immediate.isLiteral_literal (t : Valtype) : (literal t).isLiteral = true := by
  cases t <;> rfl

namespace Opcode

set_option maxRecDepth 4000 in
/-- The constant instructions carry a literal of their type. -/
theorem immediate_const : ∀ op ∈ table, ∀ t, op.object = some t → op.name = "const" →
    op.immediate = .literal t := by
  decide +kernel

/-- What an opcode byte is found as is in the table. -/
theorem mem_of_ofByte? {b : UInt8} {op : Opcode} (found : ofByte? b = some op) : op ∈ table :=
  List.mem_of_find?_eq_some found

/-- What a mnemonic is found as is in the table. -/
theorem mem_of_ofMnemonic? {m : String} {op : Opcode} (found : ofMnemonic? m = some op) :
    op ∈ table := by
  let parts := splitMnemonic (normalizeMnemonic m)
  have here : find? parts.1 parts.2 = some op := found
  exact List.mem_of_find?_eq_some here

end Opcode

namespace Node

/-- An instruction whose immediate is a literal has one. -/
theorem hasLiteral_instr {op : Opcode} (listed : op ∈ Opcode.table) {args : List Node}
    {memArg : Option MemArg} (literal : ∀ t, op.immediate = .literal t →
      ∃ literal v, args.head? = some literal ∧ Value.ofLiteral t literal = .ok v) :
    HasLiteral (.instr op.name op.object args memArg) := by
  cases object : op.object with
  | none => trivial
  | some t => exact fun isConst => literal t (Opcode.immediate_const op listed t object isConst)

/-- An instruction without a literal is no constant. -/
theorem hasLiteral_of_plain {op : Opcode} (listed : op ∈ Opcode.table)
    (plain : op.immediate.isLiteral = false) (args : List Node) (memArg : Option MemArg) :
    HasLiteral (.instr op.name op.object args memArg) := by
  refine hasLiteral_instr listed fun t isLiteral => ?_
  rw [isLiteral, Immediate.isLiteral_literal] at plain
  cases plain

end Node

end WasmEngine
