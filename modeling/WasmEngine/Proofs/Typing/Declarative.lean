import WasmEngine.Proofs.Typing.ListedTypes
import WasmEngine.Typing.Context

/-!
# The typing relation

`HasType` says which operands an instruction takes and which results it leaves, and
`SequenceHasType` puts instructions together.  The types of the operands that are never reached, of
dropped and of selected operands are chosen freely, and what lies below the operands of an
instruction stays as it is.  Nothing here runs: the relation is the standard that the checker is
held to.
-/

namespace WasmEngine.Typing

/-- The position that an immediate denotes, if it is numeric. -/
def position? : Node → Option Nat
  | .number n => some n.toU32
  | _ => none

mutual

/-- An instruction takes operands of the first types and leaves results of the second. -/
inductive HasType (ctx : ModuleContext) : FuncFrame → Node → List Valtype → List Valtype → Prop
  | onType {frame op t args memArg} (listed : op ∈ Opcode.table) (object : op.object = some t)
      (memory : op.immediate = .memArg → ctx.mems ≠ []) :
      HasType ctx frame (.instr op.name (some t) args memArg)
        (op.typeOn t).args (op.typeOn t).result
  | nop {frame args memArg} : HasType ctx frame (.instr "nop" none args memArg) [] []
  | finish {frame args memArg} : HasType ctx frame (.instr "end" none args memArg) [] []
  | unreachable {frame args memArg ts us} :
      HasType ctx frame (.instr "unreachable" none args memArg) ts us
  | drop {frame args memArg t} : HasType ctx frame (.instr "drop" none args memArg) [t] []
  | select {frame args memArg t} :
      HasType ctx frame (.instr "select" none args memArg) [t, t, .i32] [t]
  | getLocal {frame args memArg i t} (index : args[0]?.bind position? = some i)
      (declared : frame.local? i = some t) :
      HasType ctx frame (.instr "get_local" none args memArg) [] [t]
  | setLocal {frame args memArg i t} (index : args[0]?.bind position? = some i)
      (declared : frame.local? i = some t) :
      HasType ctx frame (.instr "set_local" none args memArg) [t] []
  | teeLocal {frame args memArg i t} (index : args[0]?.bind position? = some i)
      (declared : frame.local? i = some t) :
      HasType ctx frame (.instr "tee_local" none args memArg) [t] [t]
  | getGlobal {frame args memArg i g} (index : args[0]?.bind position? = some i)
      (declared : ctx.global? i = some g) :
      HasType ctx frame (.instr "get_global" none args memArg) [] [g.valtype]
  | setGlobal {frame args memArg i t} (index : args[0]?.bind position? = some i)
      (declared : ctx.global? i = some ⟨t, .var⟩) :
      HasType ctx frame (.instr "set_global" none args memArg) [t] []
  | br {frame args memArg depth ts base us} (index : args[0]?.bind position? = some depth)
      (label : frame.label? depth = some ts) :
      HasType ctx frame (.instr "br" none args memArg) (base ++ ts) us
  | brIf {frame args memArg depth ts} (index : args[0]?.bind position? = some depth)
      (label : frame.label? depth = some ts) :
      HasType ctx frame (.instr "br_if" none args memArg) (ts ++ [.i32]) ts
  | brTable {frame args memArg ts base us} (default : args ≠ [])
      (labels : ∀ arg ∈ args, ∃ depth, position? arg = some depth ∧ frame.label? depth = some ts) :
      HasType ctx frame (.instr "br_table" none args memArg) (base ++ ts ++ [.i32]) us
  | ret {frame args memArg base us} :
      HasType ctx frame (.instr "return" none args memArg) (base ++ frame.returns) us
  | currentMemory {frame args memArg} (memory : ctx.mems ≠ []) :
      HasType ctx frame (.instr "current_memory" none args memArg) [] [.i32]
  | growMemory {frame args memArg} (memory : ctx.mems ≠ []) :
      HasType ctx frame (.instr "grow_memory" none args memArg) [.i32] [.i32]
  | block {frame label body result}
      (inner : SequenceHasType ctx (frame.addLabel result.toList) body [] result.toList) :
      HasType ctx frame (.block label body result) [] result.toList
  | loop {frame label body result}
      (inner : SequenceHasType ctx (frame.addLabel []) body [] result.toList) :
      HasType ctx frame (.loop label result body) [] result.toList
  | ifElse {frame label consequent alternate result}
      (whenTrue : SequenceHasType ctx (frame.addLabel result.toList) consequent [] result.toList)
      (whenFalse : SequenceHasType ctx (frame.addLabel result.toList) alternate [] result.toList) :
      HasType ctx frame (.ifElse label result consequent alternate) [.i32] result.toList
  | call {frame index i type} (resolved : index.number? = some i)
      (declared : ctx.func? i = some type) :
      HasType ctx frame (.call index) type.args type.result
  | callIndirect {frame signature} (table : ctx.tables ≠ []) :
      HasType ctx frame (.callIndirect signature) ((ctx.funcType signature).args ++ [.i32])
        (ctx.funcType signature).result

/-- A sequence takes operands of the first types and leaves results of the second. -/
inductive SequenceHasType (ctx : ModuleContext) :
    FuncFrame → List Node → List Valtype → List Valtype → Prop
  | nil {frame ts} : SequenceHasType ctx frame [] ts ts
  | cons {frame node nodes base ts us vs} (first : HasType ctx frame node ts us)
      (rest : SequenceHasType ctx frame nodes (base ++ us) vs) :
      SequenceHasType ctx frame (node :: nodes) (base ++ ts) vs

end

/-- A function body makes the results of the function from nothing, with the parameters and locals
of the function, and with the function itself as the only label. -/
def FunctionHasType (ctx : ModuleContext) (f : Func) : Prop :=
  let type := ctx.funcType f.signature
  let locals := type.args ++ f.locals.map Param.valtype
  SequenceHasType ctx ⟨f.name.value, locals, [type.result], type.result⟩ f.body [] type.result

end WasmEngine.Typing
