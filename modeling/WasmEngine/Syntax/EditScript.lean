import WasmEngine.Syntax.Traversal

/-!
# Scripts of edits

Visitors given as data: a rule says at which of the nodes that it meets it acts, and what it does
there.  A script is a list of rules; running it gives the edited tree and a record of every call.
-/

namespace WasmEngine

/-- What a rule does at a node. -/
inductive EditAction where
  | stop
  | remove
  | replace (node : Node)
  | before (node : Node)
  | after (node : Node)
  | shift (delta : Int)
  | findParent (key : String)

/-- What came of an action. -/
inductive EditOutcome where
  | done
  | parent (kind : Option NodeKind)
  | refused (error : TraverseError)
  deriving DecidableEq, Repr

/-- A rule: the nodes that it is for, and its actions.  It acts at those whose mnemonic is `name`, at
the one of the number `nth` among these only, and at most `times` times. -/
structure EditRule where
  key : VisitorKey
  actions : List EditAction
  name : Option String
  nth : Option Nat
  times : Option Nat

/-- The record of a call of a rule. -/
structure EditCall where
  rule : Nat
  kind : NodeKind
  mnemonic : Option String
  parent : Option NodeKind
  depth : Nat
  removed : Bool
  outcomes : List EditOutcome
  deriving DecidableEq, Repr

/-- How often a rule met a node of its name, and how often it acted. -/
structure EditCount where
  seen : Nat
  fired : Nat
  deriving DecidableEq, Repr

/-- The counts of the rules, and the calls so far. -/
structure EditProgress where
  counts : List EditCount
  calls : Array EditCall

namespace EditAction

/-- An edit and its outcome. -/
def edited (path : Path) : Except TraverseError Path → Path × EditOutcome
  | .ok path => (path, .done)
  | .error e => (path, .refused e)

/-- Carries out an action. -/
def run (path : Path) : EditAction → Path × EditOutcome
  | stop => (path.stop, .done)
  | remove => edited path path.remove
  | replace node => edited path (path.replaceWith node)
  | before node => edited path (path.insertBefore node)
  | after node => edited path (path.insertAfter node)
  | shift delta => edited path (path.shift delta)
  | findParent key =>
    match VisitorKey.parse key with
    | .ok key => (path, .parent (path.findParent? key))
    | .error e => (path, .refused e)

/-- Carries out actions in order. -/
def runAll (path : Path) : List EditAction → Path × List EditOutcome
  | [] => (path, [])
  | action :: actions =>
    let (path, outcome) := action.run path
    let (path, outcomes) := runAll path actions
    (path, outcome :: outcomes)

end EditAction

namespace EditRule

/-- The mnemonic of a plain instruction. -/
def mnemonicOf? : Node → Option String
  | .instr id object _ _ => some (mnemonic object id)
  | _ => none

/-- Whether a rule acts, given its counts and the mnemonic of a node of its name. -/
def fires (rule : EditRule) (count : EditCount) : Bool :=
  rule.nth.all (· == count.seen) && rule.times.all (count.fired < ·)

/-- Calls a rule of a script. -/
def handle (number : Nat) (rule : EditRule) (path : Path) (p : EditProgress) :
    Path × EditProgress :=
  let shown := mnemonicOf? path.node
  let hit := rule.name.all fun name => shown == some name
  let count := p.counts.getD number ⟨0, 0⟩
  let fires := hit && rule.fires count
  let (path, outcomes) := if fires then EditAction.runAll path rule.actions else (path, [])
  let count := ⟨count.seen + hit.toNat, count.fired + fires.toNat⟩
  let call := ⟨number, path.kind, shown, path.parentKind?, path.depth, path.edits.removed, outcomes⟩
  (path, ⟨p.counts.set number count, p.calls.push call⟩)

end EditRule

/-- Walks a node with the rules of a script. -/
def Node.runScript (fuel : Nat) (rules : List EditRule) (node : Node) :
    Option (Node × List EditCall) :=
  let visitors := rules.zipIdx.map fun (rule, i) =>
    (⟨rule.key, rule.handle i⟩ : Visitor EditProgress)
  let start : EditProgress := ⟨List.replicate rules.length ⟨0, 0⟩, #[]⟩
  (node.traverse fuel visitors start).map fun (node, p) => (node, p.calls.toList)

end WasmEngine
