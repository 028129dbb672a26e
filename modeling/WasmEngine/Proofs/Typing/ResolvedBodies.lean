import WasmEngine.Proofs.Binary.Instructions
import WasmEngine.Proofs.Outcome
import WasmEngine.Proofs.Syntax.Encodable
import WasmEngine.Typing.Check

/-!
# What the checker reports of resolved bodies

Some errors of the checker are not about types: a name in an index position, an instruction without its
index, and an instruction that there is none of.  Instructions with the arguments of their immediates and
numbers for references never cause them, in dead code as little as elsewhere
(`Typing.internal_of_checkFunctions`).
-/

namespace WasmEngine

open Node Outcome

/-- An error that no type is the cause of: the body was not resolved, or it is not made of instructions.
Inside the arms of a condition it counts as well. -/
def TypeError.IsInternal : TypeError → Prop
  | .unresolvedIdentifier _ | .missingIndex _ | .unknownInstruction _ | .unexpectedNode _ => True
  | .inConsequent e | .inAlternate e => e.IsInternal
  | _ => False

namespace Typing

variable {α β : Type}

/-- A check fails for its types only, if it fails. -/
def Accountable (r : Typed α) : Prop := ∀ e, r = .error e → ¬ e.IsInternal

theorem accountable_ok (a : α) : Accountable (.ok a : Typed α) := nofun

theorem accountable_pure (a : α) : Accountable (pure a : Typed α) := nofun

theorem accountable_error {e : TypeError} (external : ¬ e.IsInternal) :
    Accountable (.error e : Typed α) := by
  rintro e' same
  cases same
  exact external

/-- Checks in sequence are accountable when both parts are. -/
theorem Accountable.bind {r : Typed α} {f : α → Typed β} (first : Accountable r)
    (rest : ∀ a, Accountable (f a)) : Accountable (r >>= f) := by
  cases r with
  | ok a => exact rest a
  | error e => exact accountable_error (first e rfl)

theorem accountable_of_ok {r : Typed α} (succeeds : ∃ a, r = .ok a) : Accountable r := by
  obtain ⟨a, rfl⟩ := succeeds
  exact accountable_ok a

theorem accountable_operands (r : Except OperandError α) : Accountable (operands r) := by
  cases r with
  | ok a => exact accountable_ok a
  | error e => exact accountable_error nofun

theorem accountable_found (r : Option α) {e : TypeError} (external : ¬ e.IsInternal) :
    Accountable (found r e) := by
  cases r with
  | some a => exact accountable_ok a
  | none => exact accountable_error external

theorem accountable_labelTypes (frame : FuncFrame) (depth : Nat) :
    Accountable (labelTypes frame depth) := accountable_found _ id

theorem accountable_requireMemory (ctx : ModuleContext) : Accountable (requireMemory ctx) := by
  unfold requireMemory
  split
  · exact accountable_ok ()
  · exact accountable_error nofun

theorem accountable_apply (stack : OperandStack) (type : FuncType) : Accountable (apply stack type) :=
  (accountable_operands _).bind fun _ => accountable_pure _

theorem Accountable.asConsequent {r : Typed α} (inside : Accountable r) :
    Accountable (Typing.asConsequent r) := by
  cases r with
  | ok a => exact accountable_ok a
  | error e => exact accountable_error (inside e rfl)

theorem Accountable.asAlternate {r : Typed α} (inside : Accountable r) :
    Accountable (Typing.asAlternate r) := by
  cases r with
  | ok a => exact accountable_ok a
  | error e => exact accountable_error (inside e rfl)

/-! ## Immediates -/

/-- An index that is a number is found at its position. -/
theorem exists_indexArg {is : List Index} (numbers : ∀ i ∈ is, i.IsNumber) {position : Nat}
    (within : position < is.length) (name : String) :
    ∃ n, indexArg name (is.map ofIndex) position = .ok n := by
  obtain ⟨n, number⟩ := numbers _ (List.getElem_mem within)
  exact ⟨n.toU32, by rw [indexArg, List.getElem?_map, List.getElem?_eq_getElem within, number]; rfl⟩

theorem accountable_indexArg {is : List Index} (numbers : ∀ i ∈ is, i.IsNumber) {position : Nat}
    (within : position < is.length) (name : String) :
    Accountable (indexArg name (is.map ofIndex) position) :=
  accountable_of_ok (exists_indexArg numbers within name)

theorem accountable_checkTargets {is : List Index} (numbers : ∀ i ∈ is, i.IsNumber)
    (frame : FuncFrame) (types : List Valtype) {positions : List Nat}
    (within : ∀ position ∈ positions, position < is.length) :
    Accountable (checkTargets frame types (is.map ofIndex) positions) := by
  induction positions with
  | nil => exact accountable_ok ()
  | cons position positions ih =>
    obtain ⟨first, others⟩ := List.forall_mem_cons.1 within
    refine (accountable_indexArg numbers first _).bind fun depth =>
      (accountable_labelTypes frame depth).bind fun target => ?_
    split
    · exact ih others
    · exact accountable_error nofun

/-! ## Instructions -/

theorem accountable_checkNumeric (ctx : ModuleContext) {op : Opcode} (listed : op ∈ Opcode.table)
    {t : Valtype} (object : op.object = some t) (stack : OperandStack) :
    Accountable (checkNumeric ctx t op.name stack) := by
  have known : Signatures.numeric? t op.name = some (op.typeOn t) :=
    Signatures.numeric?_eq_some_iff.2 ⟨op, listed, object, rfl, rfl⟩
  unfold checkNumeric
  rw [known]
  have apply_ : Accountable (do
      let type ← found (some (op.typeOn t)) (.unknownInstruction (mnemonic (some t) op.name))
      apply stack type) := (accountable_ok _).bind fun _ => accountable_apply _ _
  split
  · exact (accountable_requireMemory ctx).bind fun _ => apply_
  · exact apply_

set_option maxRecDepth 4000 in
/-- The instructions that work on no type of their own and open nothing. -/
theorem name_of_untyped : ∀ op ∈ Opcode.table, op.object = none → op.byte ≠ Binary.endByte →
    op.byte ≠ Binary.elseByte → (op.name == "call") = false → op.immediate ≠ .block →
    op.immediate ≠ .callIndirect →
    (op.name, op.immediate) ∈ [("unreachable", .none), ("nop", .none), ("return", .none),
      ("drop", .none), ("select", .none), ("current_memory", .memoryReserved),
      ("grow_memory", .memoryReserved), ("br_table", .brTable), ("get_local", .index),
      ("set_local", .index), ("tee_local", .index), ("get_global", .index), ("set_global", .index),
      ("br", .index), ("br_if", Immediate.index)] := by
  decide +kernel

variable {ctx : ModuleContext} {frame : FuncFrame} {stack : OperandStack}

/-- The cases are the instructions that take an index. -/
theorem accountable_checkPlain_index {id : String} {i : Index} (number : i.IsNumber)
    (listed : id ∈ ["get_local", "set_local", "tee_local", "get_global", "set_global", "br", "br_if"]) :
    Accountable (checkPlain ctx frame id [ofIndex i] stack) := by
  have single : ∀ j ∈ [i], j.IsNumber := List.forall_mem_singleton.2 number
  have index (name : String) : Accountable (indexArg name [ofIndex i] 0) :=
    accountable_indexArg single Nat.one_pos name
  simp only [List.mem_cons, List.not_mem_nil, or_false] at listed
  obtain rfl | rfl | rfl | rfl | rfl | rfl | rfl := listed
  · exact (index _).bind fun i => (accountable_found _ (by exact id)).bind fun t => accountable_pure _
  · exact (index _).bind fun i => (accountable_found _ (by exact id)).bind fun t =>
      (accountable_operands _).bind fun _ => accountable_pure _
  · exact (index _).bind fun i => (accountable_found _ (by exact id)).bind fun t =>
      (accountable_operands _).bind fun _ => accountable_pure _
  · exact (index _).bind fun i => (accountable_found _ (by exact id)).bind fun g => accountable_pure _
  · refine (index _).bind fun i => (accountable_found _ (by exact id)).bind fun g => ?_
    dsimp only
    split
    · exact accountable_error nofun
    · exact (accountable_operands _).bind fun _ => accountable_pure _
  · exact (index _).bind fun depth => (accountable_labelTypes frame depth).bind fun types =>
      (accountable_operands _).bind fun _ => accountable_pure _
  · exact (index _).bind fun depth => (accountable_labelTypes frame depth).bind fun types =>
      (accountable_operands _).bind fun _ => (accountable_operands _).bind fun _ => accountable_pure _

theorem accountable_checkPlain_brTable {is : List Index} (nonempty : is ≠ [])
    (numbers : ∀ i ∈ is, i.IsNumber) :
    Accountable (checkPlain ctx frame "br_table" (is.map ofIndex) stack) := by
  have last : is.length - 1 < is.length := Nat.sub_lt (List.length_pos_of_ne_nil nonempty) Nat.one_pos
  simp only [checkPlain, List.length_map]
  split
  · exact accountable_error id
  · refine (accountable_indexArg numbers last _).bind fun depth =>
      (accountable_labelTypes frame depth).bind fun types =>
        (accountable_checkTargets numbers frame types fun position listed => ?_).bind fun _ =>
          (accountable_operands _).bind fun _ => (accountable_operands _).bind fun _ =>
            accountable_pure _
    exact Nat.lt_trans (List.mem_range.1 listed) last

theorem accountable_checkPlain {op : Opcode} (listed : op ∈ Opcode.table) (object : op.object = none)
    (notEnd : op.byte ≠ Binary.endByte) (notElse : op.byte ≠ Binary.elseByte)
    (notCall : (op.name == "call") = false) {args : List Node} {memArg : Option MemArg}
    (operands : Operands Index.IsNumber op.immediate args memArg) :
    Accountable (checkPlain ctx frame op.name args stack) := by
  have opens : op.immediate ≠ .block ∧ op.immediate ≠ .callIndirect := by
    constructor <;> intro kind <;> rw [kind] at operands <;> cases operands
  have known := name_of_untyped op listed object notEnd notElse notCall opens.1 opens.2
  simp only [List.mem_cons, Prod.mk.injEq, List.not_mem_nil, or_false] at known
  obtain ⟨name, kind⟩ | ⟨name, kind⟩ | ⟨name, kind⟩ | ⟨name, kind⟩ | ⟨name, kind⟩ | ⟨name, kind⟩ |
    ⟨name, kind⟩ | ⟨name, kind⟩ | indexed := known
  · rw [name]
    exact accountable_ok _
  · rw [name]
    exact accountable_ok _
  · rw [name]
    exact (accountable_operands _).bind fun _ => accountable_pure _
  · rw [name]
    exact (accountable_operands _).bind fun _ => accountable_pure _
  · rw [name]
    exact (accountable_operands _).bind fun _ => (accountable_operands _).bind fun _ =>
      (accountable_operands _).bind fun _ => accountable_pure _
  · rw [name]
    exact (accountable_requireMemory ctx).bind fun _ => accountable_pure _
  · rw [name]
    exact (accountable_requireMemory ctx).bind fun _ =>
      (accountable_operands _).bind fun _ => accountable_pure _
  · rw [name]
    rw [kind] at operands
    cases operands with
    | brTable some_ all => exact accountable_checkPlain_brTable some_ all
  · have kind : op.immediate = .index := by
      obtain ⟨-, kind⟩ | ⟨-, kind⟩ | ⟨-, kind⟩ | ⟨-, kind⟩ | ⟨-, kind⟩ | ⟨-, kind⟩ | ⟨-, kind⟩ :=
        indexed <;> exact kind
    rw [kind] at operands
    cases operands with
    | index holds =>
      refine accountable_checkPlain_index holds ?_
      simp only [List.mem_cons, List.not_mem_nil, or_false]
      exact indexed.imp And.left (Or.imp And.left (Or.imp And.left (Or.imp And.left
        (Or.imp And.left (Or.imp And.left And.left)))))

/-! ## Bodies -/

/-- The checks inside a construct are like that of a sequence. -/
theorem accountable_of_all {nodes : List Node} (each : ∀ node ∈ nodes, ∀ frame stack,
      Accountable (checkInstruction ctx frame stack node)) (frame : FuncFrame) (stack : OperandStack) :
    Accountable (checkSequence ctx frame stack nodes) := by
  induction nodes generalizing stack with
  | nil => exact accountable_ok stack
  | cons node nodes ih =>
    obtain ⟨first, others⟩ := List.forall_mem_cons.1 each
    exact (first frame stack).bind fun stack => ih others stack

theorem accountable_checkInstruction {node : Node} {sig : SignatureRef → Prop} {depth : Nat}
    (encodable : node.Encodable Index.IsNumber sig depth) (frame : FuncFrame) (stack : OperandStack) :
    Accountable (checkInstruction ctx frame stack node) := by
  induction encodable generalizing frame stack with
  | @instr _ op args memArg listed notEnd notElse notCall operands =>
    cases object : op.object with
    | some t => exact accountable_checkNumeric ctx listed object stack
    | none => exact accountable_checkPlain listed object notEnd notElse notCall operands
  | block _ _ ih =>
    exact (accountable_of_all ih _ _).bind fun _ => (accountable_operands _).bind fun _ =>
      accountable_pure _
  | loop _ _ ih =>
    exact (accountable_of_all ih _ _).bind fun _ => (accountable_operands _).bind fun _ =>
      accountable_pure _
  | ifElse _ _ _ ihTrue ihFalse =>
    refine (accountable_operands _).bind fun _ => Accountable.bind (Accountable.asConsequent ?_)
      fun _ => Accountable.bind (Accountable.asAlternate ?_) fun _ => accountable_pure _
    · exact (accountable_of_all ihTrue _ _).bind fun _ => accountable_operands _
    · exact (accountable_of_all ihFalse _ _).bind fun _ => accountable_operands _
  | call holds =>
    obtain ⟨n, rfl⟩ := holds
    exact (accountable_ok _).bind fun i => (accountable_found _ (by exact id)).bind fun type =>
      accountable_apply _ _
  | callIndirect =>
    rw [checkInstruction]
    split
    · exact accountable_error id
    · exact (accountable_operands _).bind fun _ => accountable_apply _ _

theorem accountable_checkFunction {f : Func} {sig : SignatureRef → Prop}
    (inside : EncodableIn Index.IsNumber sig f.body) : Accountable (checkFunction ctx f) :=
  (accountable_of_all (fun node listed frame stack =>
    accountable_checkInstruction (inside node listed) frame stack) _ _).bind fun _ =>
      accountable_operands _

/-- The errors of a module whose fields were resolved are about types. -/
theorem internal_of_checkFunctions {m : Module} {sig : SignatureRef → Prop}
    (fields : AreFields Index.IsNumber sig (EncodableIn Index.IsNumber sig) m.fields) :
    ∀ e ∈ checkFunctions ctx m, ¬ e.IsInternal := by
  intro e reported
  obtain ⟨f, listed, failed⟩ := List.mem_filterMap.1 reported
  obtain ⟨field, member, same⟩ := List.mem_filterMap.1 listed
  have inside : EncodableIn Index.IsNumber sig f.body := by
    cases fields field member <;> cases same
    assumption
  cases checked : checkFunction ctx f with
  | ok =>
    rw [checked] at failed
    cases failed
  | error e' =>
    rw [checked] at failed
    cases failed
    exact accountable_checkFunction inside _ checked

end Typing

end WasmEngine
