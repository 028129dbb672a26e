import WasmEngine.Binary.Decoder
import WasmEngine.Float.Spelling
import WasmEngine.Opcode

/-!
# Decoding instructions

A sequence of instructions up to the `end` or `else` that closes it.
-/

namespace WasmEngine.Binary.Decode

/-- What closes a sequence. -/
inductive Terminator where
  | finish
  | alternative
  deriving DecidableEq

/-- A generated label. -/
def label (stem : String) : DecodeM Identifier := return .synthesized (← fresh stem)

/-- The node of a plain instruction. -/
def plain (op : Opcode) (args : List Node) (memArg : Option MemArg) : Node :=
  .instr op.name op.object args memArg

/-- An index as an argument. -/
def indexArg (n : Nat) : Node := .number (.ofInt n)

/-- An instruction other than a block, after its byte. -/
def simple (op : Opcode) : DecodeM Node :=
  match op.immediate with
  | .none | .block => return plain op [] none
  | .index => do
    let index ← read .u32
    if op.name == "call" then return .call (.ofNat index)
    else return plain op [indexArg index] none
  | .brTable => do
    let count ← read .u32
    let labels ← times (read .u32) (count + 1)
    return plain op (labels.map indexArg) none
  | .callIndirect => do
    let start ← pos
    let index ← read .u32
    match (← get).types[index]? with
    | none => failAt start (.callIndirectSignatureNotFound index)
    | some signature =>
      zeroFlag
      return .callIndirect (.inline signature)
  | .memArg => do
    let align ← read .u32
    let offset ← read .u32
    return plain op [] (some ⟨align, offset⟩)
  | .memoryReserved => do
    zeroFlag
    return plain op [] none
  | .i32 => return plain op [.number (.ofInt (← read .i32))] none
  | .i64 => do
    let value ← read .i64
    return plain op [.longNumber ⟨.ofInt value, toString value⟩] none
  | .f32 => do
    let bits ← read (.word 4)
    return plain op [.float (.ofF32 bits (binary32.display bits))] none
  | .f64 => do
    let bits ← read (.word 8)
    return plain op [.float (.ofF64 bits (binary64.display bits))] none

/-- Refuses an `else` at the end of a sequence that has none; it was the byte just read. -/
def requireFinish (t : Terminator) : DecodeM Unit := do
  if t = .alternative then
    failAt ((← pos) - 1) (.unexpectedInstruction elseByte.toNat)

/-- The instructions of a sequence inside `depth` blocks, and what closes it.  Every instruction takes
a byte, so that as much fuel as there are bytes left is enough. -/
def instructions : Nat → Nat → DecodeM (List Node × Terminator)
  | 0, _ => read (.fail .unexpectedEnd)
  | fuel + 1, depth => do
    let start ← pos
    let byte ← read .byte
    match Opcode.ofByte? byte with
    | none => failAt start (.unexpectedInstruction byte.toNat)
    | some op =>
      note op.mnemonic
      if byte = endByte then return ([], .finish)
      else if byte = elseByte then return ([], .alternative)
      else
        let node ←
          if op.immediate = .block then do
            if maxNesting ≤ depth then failAt start (.nestingTooDeep maxNesting)
            let result ← blockType
            if byte = ifByte then do
              let label ← label "if"
              let (consequent, terminator) ← instructions fuel (depth + 1)
              let alternate ←
                if terminator = .alternative then do
                  let (alternate, terminator) ← instructions fuel (depth + 1)
                  requireFinish terminator
                  pure alternate
                else pure []
              pure (Node.ifElse label result consequent alternate)
            else do
              let (body, terminator) ← instructions fuel (depth + 1)
              requireFinish terminator
              if byte = loopByte then pure (Node.loop (← label "loop") result body)
              else pure (Node.block (← label "block") body result)
          else simple op
        let (rest, terminator) ← instructions fuel depth
        return (node :: rest, terminator)

/-- A sequence closed by `end`. -/
def expression : DecodeM (List Node) := do
  let (body, terminator) ← instructions ((← get).reader.remaining + 1) 0
  requireFinish terminator
  return body

end WasmEngine.Binary.Decode
