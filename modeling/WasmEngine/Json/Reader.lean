import WasmEngine.Text.Digits
import WasmEngine.Json

/-!
# Reading JSON

A strict reader: one value, blanks around it, nothing else.  Every reader takes the characters that
are left and gives a value with what it left over.
-/

namespace WasmEngine.Json

/-- Drops the blanks that may stand between tokens. -/
def skipBlanks : List Char → List Char
  | c :: cs => if c = ' ' ∨ c = '\n' ∨ c = '\t' ∨ c = '\r' then skipBlanks cs else c :: cs
  | [] => []

/-- Four hexadecimal digits. -/
def hex4? : List Char → Option (Nat × List Char)
  | a :: b :: c :: d :: rest => (Text.digits? 16 [a, b, c, d]).map (·, rest)
  | _ => none

/-- The character named by a `\u` escape, whose digits come next.  Two escapes name one character
when they are the halves of a surrogate pair; half a pair alone names none. -/
def unicodeEscape? (cs : List Char) : Option (Option Char × List Char) :=
  match hex4? cs with
  | none => none
  | some (unit, rest) =>
    if 0xD800 ≤ unit ∧ unit < 0xDC00 then
      match rest with
      | '\\' :: 'u' :: more =>
        match hex4? more with
        | some (low, more) =>
          if 0xDC00 ≤ low ∧ low < 0xE000 then
            some (some (Char.ofNat (0x10000 + (unit - 0xD800) * 0x400 + (low - 0xDC00))), more)
          else some (none, rest)
        | none => none
      | _ => some (none, rest)
    else if 0xDC00 ≤ unit ∧ unit < 0xE000 then some (none, rest)
    else some (some (Char.ofNat unit), rest)

/-- The character named by a one-letter escape. -/
def simpleEscape? : Char → Option Char
  | '"' => some '"'
  | '\\' => some '\\'
  | '/' => some '/'
  | 'b' => some '\x08'
  | 'f' => some '\x0c'
  | 'n' => some '\n'
  | 'r' => some '\r'
  | 't' => some '\t'
  | _ => none

/-- The characters of a string literal after its opening quotation mark, with a gap for each half of
a surrogate pair that stands alone.  The fuel bounds the number of characters read. -/
def stringBody? : Nat → List Char → Option (List (Option Char) × List Char)
  | 0, _ => none
  | _ + 1, [] => none
  | _ + 1, '"' :: rest => some ([], rest)
  | fuel + 1, '\\' :: 'u' :: rest =>
    match unicodeEscape? rest with
    | some (c, rest) => (stringBody? fuel rest).map fun (cs, rest) => (c :: cs, rest)
    | none => none
  | fuel + 1, '\\' :: c :: rest =>
    match simpleEscape? c with
    | some c => (stringBody? fuel rest).map fun (cs, rest) => (some c :: cs, rest)
    | none => none
  | fuel + 1, c :: rest =>
    if c.toNat < 0x20 ∨ c = '\\' then none
    else (stringBody? fuel rest).map fun (cs, rest) => (some c :: cs, rest)

/-- A key after its opening quotation mark, which may not have a gap. -/
def key? (cs : List Char) : Option (String × List Char) :=
  (stringBody? (cs.length + 1) cs).bind fun (body, rest) =>
    (body.mapM id).map fun body => (String.ofList body, rest)

/-- A string value after its opening quotation mark.  A gap reads as the replacement character. -/
def string? (cs : List Char) : Option (String × List Char) :=
  (stringBody? (cs.length + 1) cs).map fun (body, rest) =>
    (String.ofList (body.map fun c => c.getD '\ufffd'), rest)

/-- A run of decimal digits, which must not be empty. -/
def digitRun? (cs : List Char) : Option (List Char × List Char) :=
  let run := cs.takeWhile Char.isDigit
  if run.isEmpty then none else some (run, cs.dropWhile Char.isDigit)

/-- The fraction of a number, empty where there is none. -/
def fraction? : List Char → Option (List Char × List Char)
  | '.' :: rest => (digitRun? rest).map fun (run, rest) => ('.' :: run, rest)
  | cs => some ([], cs)

/-- The exponent of a number, empty where there is none. -/
def exponent? : List Char → Option (List Char × List Char)
  | c :: rest =>
    if c = 'e' ∨ c = 'E' then
      let (sign, rest) := match rest with
        | '+' :: rest => (['+'], rest)
        | '-' :: rest => (['-'], rest)
        | _ => ([], rest)
      (digitRun? rest).map fun (run, rest) => (c :: (sign ++ run), rest)
    else some ([], c :: rest)
  | [] => some ([], [])

/-- The unsigned part of a number.  A leading zero stands alone. -/
def magnitude? (cs : List Char) : Option (List Char × List Char) :=
  match digitRun? cs with
  | some ('0' :: _ :: _, _) => none
  | found => found

/-- A number.  It is an integer if it has neither fraction nor exponent; a negative zero is not
one, since no integer has that spelling. -/
def number? (cs : List Char) : Option (Json × List Char) :=
  let (negative, body) := match cs with
    | '-' :: rest => (true, rest)
    | _ => (false, cs)
  match magnitude? body with
  | none => none
  | some (whole, rest) =>
    match fraction? rest with
    | none => none
    | some (fraction, rest) =>
      match exponent? rest with
      | none => none
      | some (exponent, rest) =>
        let value := (Text.foldDigits? 10 0 whole).getD 0
        if fraction.isEmpty ∧ exponent.isEmpty ∧ ¬ (negative ∧ value = 0) then
          some (int (if negative then -(value : Int) else value), rest)
        else
          let sign := if negative then ['-'] else []
          some (real (String.ofList (sign ++ whole ++ fraction ++ exponent)), rest)

/-- A fixed word. -/
def word? (word : List Char) (value : Json) (cs : List Char) : Option (Json × List Char) :=
  if word.isPrefixOf cs then some (value, cs.drop word.length) else none

mutual

/-- A value and what follows it.  The fuel bounds the number of tokens read. -/
def value? : Nat → List Char → Option (Json × List Char)
  | 0, _ => none
  | fuel + 1, cs =>
    match skipBlanks cs with
    | '[' :: rest =>
      match skipBlanks rest with
      | ']' :: rest => some (arr [], rest)
      | rest => (items? fuel rest).map fun (items, rest) => (arr items, rest)
    | '\x7b' :: rest =>
      match skipBlanks rest with
      | '\x7d' :: rest => some (obj [], rest)
      | rest => (members? fuel rest).map fun (members, rest) => (obj members, rest)
    | '"' :: rest => (string? rest).map fun (s, rest) => (str s, rest)
    | 'n' :: rest => word? ['u', 'l', 'l'] null rest
    | 't' :: rest => word? ['r', 'u', 'e'] (bool true) rest
    | 'f' :: rest => word? ['a', 'l', 's', 'e'] (bool false) rest
    | rest => number? rest

/-- The items of an array up to its closing bracket. -/
def items? : Nat → List Char → Option (List Json × List Char)
  | 0, _ => none
  | fuel + 1, cs =>
    match value? fuel cs with
    | none => none
    | some (item, rest) =>
      match skipBlanks rest with
      | ',' :: rest => (items? fuel rest).map fun (items, rest) => (item :: items, rest)
      | ']' :: rest => some ([item], rest)
      | _ => none

/-- The members of an object up to its closing brace. -/
def members? : Nat → List Char → Option (List (String × Json) × List Char)
  | 0, _ => none
  | fuel + 1, cs =>
    match skipBlanks cs with
    | '"' :: rest =>
      match key? rest with
      | none => none
      | some (key, rest) =>
        match skipBlanks rest with
        | ':' :: rest =>
          match value? fuel rest with
          | none => none
          | some (value, rest) =>
            match skipBlanks rest with
            | ',' :: rest =>
              (members? fuel rest).map fun (members, rest) => ((key, value) :: members, rest)
            | '\x7d' :: rest => some ([(key, value)], rest)
            | _ => none
        | _ => none
    | _ => none

end

/-- The value that a text spells, if it spells exactly one. -/
def parse? (text : String) : Option Json :=
  let cs := text.toList
  match value? (cs.length + 1) cs with
  | some (value, rest) => if (skipBlanks rest).isEmpty then some value else none
  | none => none

end WasmEngine.Json
