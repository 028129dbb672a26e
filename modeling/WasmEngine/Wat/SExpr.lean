import WasmEngine.Binary.DecodeError
import WasmEngine.Wat.Lexer

/-!
# Nested lists

The tokens of a source with matching parentheses made into lists.
-/

namespace WasmEngine.Wat

/-- A token, or a list between parentheses; its span covers both of them. -/
inductive SExpr where
  | atom (token : Token)
  | list (span : Span) (items : List SExpr)

/-- The deepest nesting of lists that is accepted. -/
def maxListDepth : Nat := Binary.maxNesting * 2

namespace SExpr

/-- Where an expression stands. -/
def span : SExpr → Span
  | atom token => token.span
  | list span _ => span

/-- The word of a keyword. -/
def keyword? : SExpr → Option String
  | atom ⟨.keyword word, _⟩ => some word
  | _ => none

/-- The name of an identifier. -/
def id? : SExpr → Option String
  | atom ⟨.id name, _⟩ => some name
  | _ => none

/-- The spelling of a number. -/
def number? : SExpr → Option String
  | atom ⟨.number spelling, _⟩ => some spelling
  | _ => none

/-- The bytes of a string. -/
def string? : SExpr → Option (List UInt8)
  | atom ⟨.string bytes, _⟩ => some bytes
  | _ => none

/-- Whether the expression is a list. -/
def isList : SExpr → Bool
  | list .. => true
  | atom _ => false

/-- The keyword at the head of a list. -/
def head? : SExpr → Option String
  | list _ (item :: _) => item.keyword?
  | _ => none

/-- Whether the expression is a list with that keyword at its head. -/
def isHeadedBy (word : String) (e : SExpr) : Bool := e.head? == some word

/-- The expression as messages show it; of a list only the head. -/
def display (e : SExpr) : String :=
  match e with
  | atom token => token.kind.display
  | list .. =>
    match e.head? with
    | some head => "(" ++ head ++ " ...)"
    | none => "(...)"

mutual

/-- The tokens of an expression, its parentheses included. -/
def tokens : SExpr → List TokenKind
  | atom token => [token.kind]
  | list _ items => .leftParen :: (tokensAll items ++ [.rightParen])

/-- The tokens of expressions in a row. -/
def tokensAll : List SExpr → List TokenKind
  | [] => []
  | e :: es => tokens e ++ tokensAll es

end

end SExpr

/-- The lists that are open, innermost first, and the finished expressions outside of them; each list
of expressions has the last one first. -/
structure Nesting where
  opened : List (Span × List SExpr)
  top : List SExpr

namespace Nesting

/-- Nothing read yet. -/
def empty : Nesting := ⟨[], []⟩

/-- Adds an expression to the innermost open list. -/
def push (n : Nesting) (e : SExpr) : Nesting :=
  match n.opened with
  | [] => { n with top := e :: n.top }
  | (span, items) :: outer => { n with opened := (span, e :: items) :: outer }

/-- Reads one token. -/
def read (n : Nesting) (t : Token) : Except ParseError Nesting :=
  match t.kind with
  | .leftParen =>
    if maxListDepth ≤ n.opened.length then .error ⟨.listsTooDeep maxListDepth, t.span⟩
    else .ok { n with opened := (t.span, []) :: n.opened }
  | .rightParen =>
    match n.opened with
    | [] => .error ⟨.unexpectedClose, t.span⟩
    | (start, items) :: outer =>
      let span : Span := { start with stop := t.span.stop }
      .ok ({ n with opened := outer }.push (.list span items.reverse))
  | _ => .ok (n.push (.atom t))

/-- Reads tokens in order. -/
def readAll (n : Nesting) : List Token → Except ParseError Nesting
  | [] => .ok n
  | t :: ts =>
    match n.read t with
    | .ok n => n.readAll ts
    | .error e => .error e

/-- The finished expressions, if no list is open. -/
def finish (n : Nesting) : Except ParseError (List SExpr) :=
  match n.opened with
  | [] => .ok n.top.reverse
  | (span, _) :: _ => .error ⟨.unclosedOpen, span⟩

end Nesting

/-- The expressions that tokens make up. -/
def nest (tokens : List Token) : Except ParseError (List SExpr) := do
  (← Nesting.empty.readAll tokens).finish

/-- The expressions of a source. -/
def readAll (source : String) : Except ParseError (List SExpr) := do
  nest (← (tokenise source).mapError LexError.toParseError)

end WasmEngine.Wat
