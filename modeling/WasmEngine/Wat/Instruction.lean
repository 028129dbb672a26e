import WasmEngine.Opcode
import WasmEngine.Syntax.NameGenerator
import WasmEngine.Wat.Items

/-!
# Reading instructions

Flat instructions end their blocks by `end`; folded ones stand in lists with their operands, and are
flattened with the operands first.  Blocks without a label get a generated one.
-/

namespace WasmEngine.Wat

/-- Reading that generates names on the way. -/
abbrev ParseM := StateT NameGenerator Parsed

/-- A generated name. -/
def freshName (stem : String) : ParseM Identifier := fun g =>
  let (name, g) := g.unique stem
  .ok (.synthesized name, g)

/-- The name that comes next, or a generated one. -/
def nameOrFresh (i : Items) (stem : String) : ParseM (Identifier × Items) :=
  match i.takeId with
  | (some name, items) => return (.ofString name, items)
  | (none, items) => return (← freshName stem, items)

/-- The alignment that a memory access has by itself, as a binary logarithm: that of the bits its
name gives, or else of its type. -/
def naturalAlignment (op : Opcode) : Nat :=
  let digits := op.name.toList.filter Char.isDigit
  if digits = ['8'] then 0
  else if digits = ['1', '6'] then 1
  else if digits = ['3', '2'] then 2
  else match op.object with
    | some .i64 | some .f64 => 3
    | _ => 2

/-- The node of a plain instruction. -/
def plainNode (op : Opcode) (args : List Node) (memArg : Option MemArg) : Node :=
  .instr op.name op.object args memArg

/-- The targets of a branch table: all names and numbers that come next. -/
def takeTargets : List SExpr → Parsed (List Node × List SExpr)
  | [] => .ok ([], [])
  | e :: rest =>
    if e.id?.isSome || e.number?.isSome then do
      let index ← parseIndex e
      let (targets, rest) ← takeTargets rest
      return (.ofIndex index :: targets, rest)
    else .ok ([], e :: rest)

/-- Whether a number is a power of two. -/
def isPowerOfTwo (n : Nat) : Bool := n != 0 && 1 <<< n.log2 == n

/-- The offset and alignment that come next; a later one replaces an earlier one. -/
def takeMemArg (m : MemArg) : List SExpr → Parsed (MemArg × List SExpr)
  | [] => .ok (m, [])
  | e :: rest =>
    match e.keyword? with
    | none => .ok (m, e :: rest)
    | some word =>
      match Text.after? "offset=" word, Text.after? "align=" word with
      | some value, _ =>
        match parseU32? value with
        | some offset => takeMemArg { m with offset } rest
        | none => .error ⟨.invalidMemoryOffset, e.span⟩
      | none, some value =>
        match (parseU32? value).filter isPowerOfTwo with
        | some bytes => takeMemArg { m with align := bytes.log2 } rest
        | none => .error ⟨.invalidAlignment, e.span⟩
      | none, none => .ok (m, e :: rest)

/-- The operand of a constant from its spelling; `none` for instructions without one. -/
def constantNode? (immediate : Immediate) (raw : String) : Option Node :=
  match immediate with
  | .i32 => (parseInt? 32 raw).map fun v => .number ⟨v, raw⟩
  | .i64 => (parseInt? 64 raw).map fun v => .longNumber ⟨.ofInt v, raw⟩
  | .f32 => (parseFloat? binary32 raw).map fun bits => .float (.ofF32 bits raw)
  | .f64 => (parseFloat? binary64 raw).map fun bits => .float (.ofF64 bits raw)
  | _ => none

/-- An instruction other than a block and its immediates.  Errors without a place of their own are
reported at `site`. -/
def parseOp (word : String) (site : SExpr) (i : Items) : Parsed (Node × Items) :=
  match Opcode.ofMnemonic? word with
  | none => .error ⟨.unknownInstruction word, site.span⟩
  | some op =>
    match op.immediate with
    | .none | .memoryReserved => .ok (plainNode op [] none, i)
    | .block => unexpected site "instruction sequence"
    | .index =>
      match i.next with
      | (none, _) => .error ⟨.missingArgument word, site.span⟩
      | (some target, items) => do
        let index ← parseIndex target
        if op.name == "call" then return (.call index, items)
        else return (plainNode op [.ofIndex index] none, items)
    | .brTable => do
      let (targets, rest) ← takeTargets i.rest
      if targets.isEmpty then .error ⟨.missingArgument "br_table", site.span⟩
      else return (plainNode op targets none, { i with rest })
    | .callIndirect => do
      let (signature, items) ← parseTypeUse i
      return (.callIndirect signature, items)
    | .memArg => do
      let (memArg, rest) ← takeMemArg ⟨naturalAlignment op, 0⟩ i.rest
      return (plainNode op [] (some memArg), { i with rest })
    | .i32 | .i64 | .f32 | .f64 =>
      match i.next with
      | (none, _) => .error ⟨.missingArgument word, site.span⟩
      | (some e, items) =>
        match e.number? with
        | none => unexpected e "constant"
        | some raw =>
          match constantNode? op.immediate raw with
          | some literal => .ok (plainNode op [literal] none, items)
          | none => .error ⟨.invalidLiteral word raw, e.span⟩

/-- Whether a word opens a block. -/
def isBlockWord (word : String) : Bool := word == "block" || word == "loop" || word == "if"

/-- Refuses a block inside `maxNesting` others. -/
def requireDepth (depth : Nat) (site : SExpr) : Parsed Unit :=
  if Binary.maxNesting ≤ depth then .error ⟨.blocksTooDeep Binary.maxNesting, site.span⟩ else .ok ()

/-- The node of a block or loop. -/
def blockNode (word : String) (label : Identifier) (result : Option Valtype) (body : List Node) : Node :=
  if word == "loop" then .loop label result body else .block label body result

/-- The error of a reader whose fuel is too small for its input. -/
def exhausted {α : Type} (span : Span) : Parsed α := .error ⟨.listsTooDeep maxListDepth, span⟩

mutual

/-- Reads instructions inside `depth` blocks until the items run out or a word of `stops` comes, which
is taken and given back.  The fuel bounds the number of items, those of nested lists included. -/
def parseSequence : Nat → Nat → List String → Items → ParseM (List Node × Option String × Items)
  | 0, _, _, i => exhausted i.span
  | fuel + 1, depth, stops, i =>
    match i.rest with
    | [] => return ([], none, i)
    | e :: rest =>
      let items := { i with rest }
      if e.isList then do
        let here ← parseFolded fuel depth e
        let (nodes, stop, items) ← parseSequence fuel depth stops items
        return (here ++ nodes, stop, items)
      else
        match e.keyword? with
        | none => unexpected e "instruction sequence"
        | some word =>
          if stops.contains word then return ([], some word, items)
          else if word == "end" || word == "else" then unexpected e "instruction sequence"
          else do
            let (node, items) ← parsePlain fuel depth word e items
            let (nodes, stop, items) ← parseSequence fuel depth stops items
            return (node :: nodes, stop, items)

/-- Reads a flat instruction; a block goes up to its `end`. -/
def parsePlain : Nat → Nat → String → SExpr → Items → ParseM (Node × Items)
  | 0, _, _, site, _ => exhausted site.span
  | fuel + 1, depth, word, site, i =>
    if word == "if" then do
      requireDepth depth site
      let (label, items) ← nameOrFresh i "if"
      let (result, items) ← parseBlockResult items
      let (consequent, stop, items) ← parseSequence fuel (depth + 1) ["else", "end"] items
      match stop with
      | none => throw ⟨.missingEnd "if", site.span⟩
      | some "else" =>
        let (_, items) := items.takeId
        let (alternate, stop, items) ← parseSequence fuel (depth + 1) ["end"] items
        if stop.isNone then throw ⟨.missingEnd "if", site.span⟩
        return (.ifElse label result consequent alternate, items.takeId.2)
      | some _ => return (.ifElse label result consequent [], items.takeId.2)
    else if isBlockWord word then do
      requireDepth depth site
      let (label, items) ← nameOrFresh i word
      let (result, items) ← parseBlockResult items
      let (body, stop, items) ← parseSequence fuel (depth + 1) ["end"] items
      if stop.isNone then throw ⟨.missingEnd word, site.span⟩
      return (blockNode word label result body, items.takeId.2)
    else parseOp word site i

/-- Reads a folded instruction: its operands in order, then itself. -/
def parseFolded : Nat → Nat → SExpr → ParseM (List Node)
  | 0, _, e => exhausted e.span
  | fuel + 1, depth, e =>
    match e.head? with
    | none => unexpected e "instruction sequence"
    | some word =>
      let i := Items.ofExpr e
      if word == "if" then do
        requireDepth depth e
        let (label, items) ← nameOrFresh i "if"
        let (result, items) ← parseBlockResult items
        let (condition, consequent, alternate) ← parseArms fuel (depth + 1) items.rest [] []
        return condition ++ [.ifElse label result consequent alternate]
      else if isBlockWord word then do
        requireDepth depth e
        let (label, items) ← nameOrFresh i word
        let (result, items) ← parseBlockResult items
        let (body, _, _) ← parseSequence fuel (depth + 1) [] items
        return [blockNode word label result body]
      else if word == "then" || word == "else" || word == "end" then
        unexpected e "instruction sequence"
      else do
        let (node, items) ← parseOp word e i
        let operands ← parseOperands fuel depth items.rest
        return operands ++ [node]

/-- Reads the parts of a folded `if`: operands of the condition and arms, of which the last one of
each kind counts. -/
def parseArms : Nat → Nat → List SExpr → List Node → List Node →
    ParseM (List Node × List Node × List Node)
  | 0, _, _, _, _ => exhausted ⟨0, 0, 1, 1⟩
  | _ + 1, _, [], consequent, alternate => return ([], consequent, alternate)
  | fuel + 1, depth, e :: rest, consequent, alternate =>
    if e.isHeadedBy "then" then do
      let (consequent, _, _) ← parseSequence fuel depth [] (.ofExpr e)
      parseArms fuel depth rest consequent alternate
    else if e.isHeadedBy "else" then do
      let (alternate, _, _) ← parseSequence fuel depth [] (.ofExpr e)
      parseArms fuel depth rest consequent alternate
    else if e.isList then do
      let here ← parseFolded fuel depth e
      let (condition, consequent, alternate) ← parseArms fuel depth rest consequent alternate
      return (here ++ condition, consequent, alternate)
    else unexpected e "if body"

/-- Reads operands, which have to be folded instructions. -/
def parseOperands : Nat → Nat → List SExpr → ParseM (List Node)
  | 0, _, _ => exhausted ⟨0, 0, 1, 1⟩
  | _ + 1, _, [] => return []
  | fuel + 1, depth, e :: rest =>
    if e.isList then do
      let here ← parseFolded fuel depth e
      let nodes ← parseOperands fuel depth rest
      return here ++ nodes
    else unexpected e "nested instruction"

end

/-- Reads all items as one sequence outside of any block. -/
def parseBody (fuel : Nat) (i : Items) : ParseM (List Node) := do
  let (body, _, _) ← parseSequence fuel 0 [] i
  return body

end WasmEngine.Wat
