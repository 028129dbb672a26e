import WasmEngine.Text.Quoted
import WasmEngine.Text.Utf8
import WasmEngine.Wat.Error
import WasmEngine.Wat.Number
import WasmEngine.Wat.Span

/-!
# Lexing

The tokens of a source in order.  Blanks, line comments and nested block comments between tokens are
skipped.  After an error the lexer goes on where it stopped, so that a source has a list of tokens
and errors; a source is well formed if there is no error among them.

Lines, columns and the depth of block comments are counted in 32 bits, and the counts are checked: the run of
the lexer ends where one of them has no room left.
-/

/-! ## Tokens -/

namespace WasmEngine.Wat

/-- What a token is.  A name is kept without its `$`, a string as its bytes, and a number as it is
spelled, since its value depends on the instruction that it belongs to. -/
inductive TokenKind where
  | leftParen
  | rightParen
  | keyword (word : String)
  | id (name : String)
  | string (bytes : List UInt8)
  | number (spelling : String)
  deriving DecidableEq, Repr

/-- A token and where it stands. -/
structure Token where
  kind : TokenKind
  span : Span
  deriving DecidableEq, Repr

/-- A token as messages show it. -/
def TokenKind.display : TokenKind → String
  | leftParen => "("
  | rightParen => ")"
  | keyword word => word
  | id name => "$" ++ name
  | string bytes => Text.stringLiteral (Text.ofUtf8Lossy bytes)
  | number spelling => spelling

/-! ## Gaps and tokens -/

/-- The blanks of the text format. -/
def isBlank (c : Char) : Bool :=
  c == ' ' || c == '\t' || c == '\n' || c == '\r' || c == '\x0c'

/-- The characters of words and names. -/
def isIdChar (c : Char) : Bool :=
  c.isAlphanum || "!#$%&'*+-./:<=>?@\\^_\x60|~".toList.contains c

/-- Where a gap between tokens stands: among blanks, in a line comment, or in so many block comments of which
the outermost began at a position. -/
inductive Gap where
  | blank
  | lineComment
  | blockComment (start : Position) (depth : Int32)

/-- A lexing step: its result and where it stopped. -/
structure Lexed (α : Type) where
  result : Except LexError α
  next : Cursor

/-- A failure that covers everything from a position to the cursor. -/
def Lexed.fail {α : Type} (kind : LexErrorKind) (start : Position) (next : Cursor) : Lexed α :=
  ⟨.error ⟨kind, start.spanTo next.pos⟩, next⟩

/-- A failure at a position. -/
def Lexed.failAt {α : Type} (kind : LexErrorKind) (pos : Position) (next : Cursor) : Lexed α :=
  ⟨.error ⟨kind, pos.spanHere⟩, next⟩

/-- Skips a gap.  It fails in a block comment that does not end, and it stops where a block comment begins in as
many others as can be counted. -/
def skipGap (pos : Position) : Gap → List Char → Lexed Unit
  | .blank, ';' :: ';' :: cs => skipGap ((pos.step ';').step ';') .lineComment cs
  | .blank, '(' :: ';' :: cs => skipGap ((pos.step '(').step ';') (.blockComment pos 1) cs
  | .blank, c :: cs =>
    if isBlank c then skipGap (pos.step c) .blank cs
    else ⟨.ok (), ⟨pos, c :: cs⟩⟩
  | .lineComment, c :: cs =>
    skipGap (pos.step c) (if c = '\n' then .blank else .lineComment) cs
  | .blockComment start depth, '(' :: ';' :: cs =>
    if depth = Int32.maxValue then .failAt .overflow pos ⟨pos, '(' :: ';' :: cs⟩
    else skipGap ((pos.step '(').step ';') (.blockComment start (depth + 1)) cs
  | .blockComment start depth, ';' :: ')' :: cs =>
    skipGap ((pos.step ';').step ')') (if depth = 1 then .blank else .blockComment start (depth - 1)) cs
  | .blockComment start depth, c :: cs => skipGap (pos.step c) (.blockComment start depth) cs
  | .blockComment start _, [] => .fail .unterminatedComment start ⟨pos, []⟩
  | _, [] => ⟨.ok (), ⟨pos, []⟩⟩

/-- The character with a code point, if there is one. -/
def charOf? (n : Nat) : Option Char := if n.isValidChar then some (Char.ofNat n) else none

/-- The character of an escape by code point, after `\u`. -/
def unicodeEscape (c : Cursor) : Lexed (List UInt8) :=
  match c.rest with
  | '\x7b' :: _ =>
    let inner := c.advance 1
    let digits := inner.run fun d => (Text.hexDigit? d).isSome
    let close := inner.afterRun fun d => (Text.hexDigit? d).isSome
    let next := close.advance 1
    match close.rest with
    | '\x7d' :: _ =>
      match (Text.unsigned? 16 UInt32.size digits).bind charOf? with
      | some ch => ⟨.ok (Text.utf8Bytes ch.toString), next⟩
      | none => .fail (.invalidUnicodeEscape (String.ofList digits)) c.pos next
    | _ => .fail .unterminatedUnicodeEscape c.pos next
  | _ => .failAt .expectedBrace c.pos (c.advance 1)

/-- The byte named by a letter in an escape. -/
def letterEscape? : Char → Option UInt8
  | 't' => some 9
  | 'n' => some 10
  | 'r' => some 13
  | '"' => some 34
  | '\'' => some 39
  | '\\' => some 92
  | _ => none

/-- The bytes of an escape after its backslash. -/
def escape (c : Cursor) : Lexed (List UInt8) :=
  match c.rest with
  | [] => .failAt .unterminatedEscape c.pos c
  | 'u' :: _ => unicodeEscape (c.advance 1)
  | d :: rest =>
    match letterEscape? d with
    | some b => ⟨.ok [b], c.advance 1⟩
    | none =>
      match Text.hexDigit? d, rest.head?.bind Text.hexDigit? with
      | some high, some low => ⟨.ok [UInt8.ofNat (high * 16 + low)], c.advance 2⟩
      | _, _ => .fail (.invalidEscape d) c.pos (c.advance 2)

/-- The bytes of a string after its opening quotation mark, which stands at `start`.  The fuel bounds
the number of characters read. -/
def stringBody (start : Position) : Nat → Cursor → Lexed (List UInt8)
  | 0, c => .fail .unterminatedString start c
  | fuel + 1, c =>
    match c.rest with
    | [] => .fail .unterminatedString start c
    | '"' :: _ => ⟨.ok [], c.advance 1⟩
    | '\\' :: _ =>
      let e := escape (c.advance 1)
      match e.result with
      | .error err => ⟨.error err, e.next⟩
      | .ok bytes =>
        let tail := stringBody start fuel e.next
        ⟨tail.result.map (bytes ++ ·), tail.next⟩
    | d :: _ =>
      let tail := stringBody start fuel (c.advance 1)
      ⟨tail.result.map (Text.utf8Bytes d.toString ++ ·), tail.next⟩

/-- Accepts a token that began at `start` if the cursor stands at the end of a token: at a blank, a
parenthesis, a semicolon or the end of the source. -/
def atBoundary (start : Position) (kind : Except LexErrorKind TokenKind) (c : Cursor) :
    Lexed TokenKind :=
  let accept := match kind with
    | .ok kind => ⟨.ok kind, c⟩
    | .error err => .fail err start c
  match c.rest with
  | [] => accept
  | d :: _ =>
    if d = '(' || d = ')' || d = ';' || isBlank d then accept
    else .fail (.unexpectedCharacterAfterToken d) start c

/-- A word that does not begin with `$` is a number, a malformed number, or a keyword. -/
def classify (word : List Char) : Except LexErrorKind TokenKind :=
  if isNumber word then .ok (.number (String.ofList word))
  else if looksNumeric word then .error (.invalidNumber (String.ofList word))
  else .ok (.keyword (String.ofList word))

/-- The token at the cursor, which begins with `d`. -/
def lexToken (c : Cursor) (d : Char) : Lexed TokenKind :=
  if d = '(' then ⟨.ok .leftParen, c.advance 1⟩
  else if d = ')' then ⟨.ok .rightParen, c.advance 1⟩
  else if d = '"' then
    let s := stringBody c.pos (c.rest.length + 1) (c.advance 1)
    match s.result with
    | .error err => ⟨.error err, s.next⟩
    | .ok bytes => atBoundary c.pos (.ok (.string bytes)) s.next
  else if d = '$' then
    let name := (c.advance 1).run isIdChar
    let next := (c.advance 1).afterRun isIdChar
    if name.isEmpty then .fail .emptyIdentifier c.pos next
    else ⟨.ok (.id (String.ofList name)), next⟩
  else if isIdChar d then atBoundary c.pos (classify (c.run isIdChar)) (c.afterRun isIdChar)
  else .failAt (.unexpectedCharacter d) c.pos (c.advance 1)

/-- The next token or error, and where to go on; nothing at the end of the source.  Whether lines and columns had
room is kept in the position. -/
def nextItem? (c : Cursor) : Option (Lexed Token) :=
  match skipGap c.pos .blank c.rest with
  | ⟨.error err, next⟩ => some ⟨.error err, next⟩
  | ⟨.ok (), c⟩ =>
    match c.rest with
    | [] => none
    | d :: _ =>
      let t := lexToken c d
      some ⟨t.result.map fun kind => ⟨kind, c.pos.spanTo t.next.pos⟩, t.next⟩

/-- Whether a count had no room on the way past a token or error. -/
def Lexed.overflows (item : Lexed Token) : Bool :=
  item.next.pos.overflow || match item.result with
    | .error ⟨.overflow, _⟩ => true
    | _ => false

/-- The end of the program where a count has no room left, after a cursor. -/
def Cursor.overflow (c : Cursor) : LexError := ⟨.overflow, c.pos.spanHere⟩

/-- The tokens and errors from a cursor on, up to the end of the source or to an overflow.  The fuel bounds their
number. -/
def itemsFrom : Nat → Cursor → List (Except LexError Token)
  | 0, _ => []
  | fuel + 1, c =>
    match nextItem? c with
    | none => if (c.pos.steps c.rest).overflow then [.error c.overflow] else []
    | some item =>
      if item.overflows then [.error c.overflow] else item.result :: itemsFrom fuel item.next

/-- The tokens and errors of a source. -/
def lexItems (source : String) : List (Except LexError Token) :=
  itemsFrom (source.length + 1) (.start source)

/-- All tokens of a source, or its first error. -/
def tokenise (source : String) : Except LexError (List Token) := (lexItems source).mapM id

end WasmEngine.Wat
