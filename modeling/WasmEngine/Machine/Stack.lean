import WasmEngine.Machine.Operator
import WasmEngine.Machine.Value
import WasmEngine.Opcode

/-!
# The operand stack

One stack serves all frames of a run.  Each frame marks its place by a label, which holds how many
values a branch to the frame carries.
-/

namespace WasmEngine

/-- An entry of the stack. -/
inductive StackEntry where
  | value (value : Value)
  | label (arity : Nat)
  deriving DecidableEq, Repr

namespace StackEntry

/-- Whether an entry is a label. -/
def isLabel : StackEntry → Bool
  | label _ => true
  | value _ => false

end StackEntry

/-- A stack, the top first. -/
structure Stack where
  entries : List StackEntry
  deriving DecidableEq, Repr

/-- An operation on a stack.  What it took before it failed is gone. -/
abbrev StackM := EStateM Fault Stack

namespace Stack

/-- The stack at the start of a run. -/
def empty : Stack := ⟨[]⟩

/-- The number of entries. -/
def size (s : Stack) : Nat := s.entries.length

/-- The number of labels. -/
def labels (s : Stack) : Nat := s.entries.countP StackEntry.isLabel

/-- The value on top. -/
def peek? (s : Stack) : Option Value :=
  match s.entries with
  | .value v :: _ => some v
  | _ => none

/-- The arity of a label so many labels below the top, and the entries below it. -/
def findLabel? : Nat → List StackEntry → Option (Nat × List StackEntry)
  | _, [] => none
  | depth, .value _ :: rest => findLabel? depth rest
  | 0, .label arity :: rest => some (arity, rest)
  | depth + 1, .label _ :: rest => findLabel? depth rest

/-- Puts a value on the stack. -/
def push (v : Value) : StackM Unit := modify fun s => ⟨.value v :: s.entries⟩

/-- Puts values on the stack, the last one on top. -/
def pushAll (vs : List Value) : StackM Unit :=
  modify fun s => ⟨(vs.map StackEntry.value).reverse ++ s.entries⟩

/-- Puts a label on the stack. -/
def pushLabel (arity : Nat) : StackM Unit := modify fun s => ⟨.label arity :: s.entries⟩

/-- Takes a value off the stack; there is none if a label is on top. -/
def pop : StackM Value := fun s =>
  match s.entries with
  | .value v :: rest => .ok v ⟨rest⟩
  | _ => .error .stackUnderflow s

/-- Takes a value of a type off the stack. -/
def popTyped (t : Valtype) : StackM Value := do
  let v ← pop
  if v.type = t then return v else throw (.typeMismatch t v.type)

/-- Takes so many values off the stack, in front of those taken before. -/
def popOnto (taken : List Value) : Nat → StackM (List Value)
  | 0 => return taken
  | n + 1 => do
    let v ← pop
    popOnto (v :: taken) n

/-- Takes so many values off the stack; the topmost is the last of the result. -/
def popN (n : Nat) : StackM (List Value) := popOnto [] n

/-- Takes a value of each type off the stack, in front of those taken before. -/
def popTypesOnto (taken : List Value) : List Valtype → StackM (List Value)
  | [] => return taken
  | t :: ts => do
    let v ← popTyped t
    popTypesOnto (v :: taken) ts

/-- Takes values of the types of a list off the stack; the topmost is the last of the result. -/
def popTypes (ts : List Valtype) : StackM (List Value) := popTypesOnto [] ts.reverse

/-- Takes a 32-bit integer off the stack. -/
def popI32 : StackM (BitVec 32) := do
  match ← popTyped .i32 with
  | .i32 b => return b
  | v => throw (.typeMismatch .i32 v.type)

/-- Leaves the topmost values in place of the innermost label and all above it. -/
def exitLabel (arity : Nat) : StackM Unit := do
  let results ← popN arity
  match findLabel? 0 (← get).entries with
  | some (_, below) =>
    set (⟨below⟩ : Stack)
    pushAll results
  | none => throw (.labelNotFound 0)

/-- Unwinds to a label with as many values as it carries, and gives that number.  The label stays
if `keep`. -/
def branch (depth : Nat) (keep : Bool) : StackM Nat := do
  match findLabel? depth (← get).entries with
  | some (arity, below) =>
    let results ← popN arity
    set (⟨if keep then .label arity :: below else below⟩ : Stack)
    pushAll results
    return arity
  | none => throw (.labelNotFound depth)

/-- The values of the stack from the bottom. -/
def values (s : Stack) : List Value :=
  s.entries.reverse.filterMap fun
    | .value v => some v
    | .label _ => none

end Stack

end WasmEngine

/-! ## Numeric instructions

The type of an instruction says what it takes from the stack; its name says which operator makes the
result.
-/

namespace WasmEngine.Stack

/-- What an operator gives, or its fault. -/
def ofResult {α : Type} : Except Fault α → StackM α
  | .ok a => return a
  | .error e => throw e

/-- Takes the operands of a numeric instruction off the stack and puts its result on it. -/
def numeric (t : Valtype) (name : String) : StackM Unit := do
  match Signatures.numeric? t name with
  | none => throw (.unknownInstruction (mnemonic (some t) name))
  | some type =>
    match Text.cut? '/' name, type.args with
    | some (op, _), source :: _ =>
      let v ← popTyped source
      push (← ofResult (v.convert t op))
    | none, [_] =>
      let a ← popTyped t
      push (← ofResult (a.unary name))
    | none, [_, _] =>
      let b ← popTyped t
      let a ← popTyped t
      push (← ofResult (a.binary name b))
    | _, _ => throw (.unknownInstruction (mnemonic (some t) name))

end WasmEngine.Stack
