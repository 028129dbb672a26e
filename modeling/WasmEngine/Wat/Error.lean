import WasmEngine.Text.Quoted
import WasmEngine.Wat.Span

/-!
# Errors of the text format

What can be wrong with a source, where it is, and the lines around that place.
-/

namespace WasmEngine.Wat

/-- What is wrong with the characters of a source.  `overflow` is no error of a source: it stands for the end of
the program where a count has no room left. -/
inductive LexErrorKind where
  | unexpectedCharacter (c : Char)
  | unexpectedCharacterAfterToken (c : Char)
  | emptyIdentifier
  | invalidNumber (word : String)
  | unterminatedComment
  | unterminatedString
  | unterminatedEscape
  | invalidEscape (c : Char)
  | expectedBrace
  | unterminatedUnicodeEscape
  | invalidUnicodeEscape (digits : String)
  | overflow
  deriving DecidableEq, Repr

/-- The text of an error without its place. -/
def LexErrorKind.message : LexErrorKind → String
  | unexpectedCharacter c => s!"unexpected character: {Text.charLiteral c}"
  | unexpectedCharacterAfterToken c => s!"unexpected character after token: {Text.charLiteral c}"
  | emptyIdentifier => "expected identifier after '$'"
  | invalidNumber word => s!"invalid number literal: {word}"
  | unterminatedComment => "unterminated block comment"
  | unterminatedString => "unterminated string literal"
  | unterminatedEscape => "unterminated escape sequence"
  | invalidEscape c => "invalid escape sequence: \\" ++ c.toString
  | expectedBrace => "expected '\x7b' after \\u"
  | unterminatedUnicodeEscape => "unterminated unicode escape"
  | invalidUnicodeEscape digits => s!"invalid unicode escape: {digits}"
  | overflow => "attempt to add with overflow"

/-- An error in the characters of a source. -/
structure LexError where
  kind : LexErrorKind
  span : Span
  deriving DecidableEq, Repr

/-- The text of an error after its place. -/
def LexError.message (e : LexError) : String :=
  s!"{e.span.line}:{e.span.column}: {e.kind.message}"

/-- What is wrong with a source. -/
inductive ParseErrorKind where
  | lex (kind : LexErrorKind)
  | listsTooDeep (limit : Nat)
  | unexpectedClose
  | unclosedOpen
  | unexpectedToken (context shown : String)
  | expectedString (context : String)
  | invalidName (context : String)
  | expectedLimit
  | invalidLimit
  | noGlobalType
  | noMutableType
  | unsupportedGlobalType
  | paramWithoutType
  | expectedTypeIndex
  | multipleBlockResults
  | expectedFuncType
  | expectedImportDescr
  | expectedElementType
  | unknownExportType
  | exportWithoutIndex
  | expectedOffset (context : String)
  | unknownStart
  | blocksTooDeep (limit : Nat)
  | missingEnd (construct : String)
  | unknownInstruction (word : String)
  | missingArgument (word : String)
  | invalidMemoryOffset
  | invalidAlignment
  | invalidLiteral (word spelling : String)
  deriving DecidableEq, Repr

/-- The text of an error without its place. -/
def ParseErrorKind.message : ParseErrorKind → String
  | lex kind => kind.message
  | listsTooDeep limit => s!"lists nested deeper than {limit}"
  | unexpectedClose => "unexpected ')'"
  | unclosedOpen => "unclosed '('"
  | unexpectedToken context shown => s!"Unexpected token in {context}: {shown}"
  | expectedString context => s!"Expected a string in {context}"
  | invalidName context => s!"Invalid UTF-8 name in {context}"
  | expectedLimit => "Expected a limit"
  | invalidLimit => "Invalid limit"
  | noGlobalType => "Could not determine global type"
  | noMutableType => "Expected a value type after mut"
  | unsupportedGlobalType => "Unsupported global type, expected mut"
  | paramWithoutType => "Function param has no valtype"
  | expectedTypeIndex => "Expected a type index"
  | multipleBlockResults => "Multiple block results are not supported"
  | expectedFuncType => "Expected a function type"
  | expectedImportDescr => "Expected an import description"
  | expectedElementType => "Expected an element type"
  | unknownExportType => "Unknown export type"
  | exportWithoutIndex => "Exported function must have a name"
  | expectedOffset context => s!"Expected an offset in {context}"
  | unknownStart => "Unknown start, expected a function index"
  | blocksTooDeep limit => s!"blocks nested deeper than {limit}"
  | missingEnd construct => s!"Missing end of {construct}"
  | unknownInstruction word => s!"Unknown instruction: {word}"
  | missingArgument word => s!"Missing argument in {word}"
  | invalidMemoryOffset => "Invalid memory offset"
  | invalidAlignment => "Alignment must be a power of two"
  | invalidLiteral word spelling => s!"Invalid {word} literal: {spelling}"

/-- The first error of a source. -/
structure ParseError where
  kind : ParseErrorKind
  span : Span
  deriving DecidableEq, Repr

/-- An error in the characters as an error of the source. -/
def LexError.toParseError (e : LexError) : ParseError := ⟨.lex e.kind, e.span⟩

namespace ParseError

/-- The text of an error with its place. -/
def message (e : ParseError) : String :=
  s!"{e.kind.message} at line {e.span.line}, column {e.span.column}"

/-- How many lines are shown before and after a line, that line included. -/
def linesAround : Nat := 5

/-- The number of characters whose bytes lie within `start..stop`, if both are boundaries of
characters. -/
def charsBetween? (start stop : Nat) : Nat → List Char → Option Nat
  | offset, [] => if offset = start ∧ start = stop then some 0 else none
  | offset, c :: cs =>
    if offset < start then charsBetween? start stop (offset + c.utf8Size) cs
    else if offset = start then countTo stop offset (c :: cs)
    else none
where
  /-- The number of characters from `offset` to `stop`. -/
  countTo (stop : Nat) : Nat → List Char → Option Nat
    | offset, [] => if offset = stop then some 0 else none
    | offset, c :: cs =>
      if offset = stop then some 0
      else if offset < stop then (countTo stop (offset + c.utf8Size) cs).map (· + 1)
      else none

/-- The lines of a source. -/
def lines : List Char → List (List Char)
  | [] => [[]]
  | c :: cs =>
    if c = '\n' then [] :: lines cs
    else match lines cs with
      | [] => [[c]]
      | l :: ls => (c :: l) :: ls

/-- The lines around an error, with a row of marks below the place. -/
def codeFrame (e : ParseError) (source : String) : String :=
  let line := e.span.line.toNat
  let width := max 1 ((charsBetween? e.span.start e.span.stop 0 source.toList).getD 0)
  let marks := String.ofList (List.replicate (e.span.column.toNat - 1) ' ' ++ List.replicate width '^')
  let rows := (lines source.toList).zipIdx 1 |>.map fun (text, n) =>
    let shown := if n + linesAround > line ∧ n < line + linesAround then String.ofList text ++ "\n" else ""
    if n = line then shown ++ marks ++ "\n" else shown
  String.join rows

end ParseError

end WasmEngine.Wat
