import WasmEngine.Float.Spelling
import WasmEngine.Text.Digits

/-!
# Number literals

The grammar of number tokens, and their values at each type.  Underscores may stand between digits
and have no meaning.
-/

namespace WasmEngine.Wat

/-- Whether a character is a digit, decimal or hexadecimal. -/
def isDigit (hex : Bool) (c : Char) : Bool :=
  (Text.digit? (if hex then 16 else 10) c).isSome

/-- Reads on in a run of digits after `count` of them; an underscore has to stand between two.  Gives
the number of digits and what follows the run. -/
def digitRun (hex : Bool) (count : Nat) (afterUnderscore : Bool) :
    List Char → Option (Nat × List Char)
  | [] => if afterUnderscore then none else some (count, [])
  | c :: cs =>
    if isDigit hex c then digitRun hex (count + 1) false cs
    else if c = '_' then
      if count = 0 || afterUnderscore then none else digitRun hex count true cs
    else if afterUnderscore then none
    else some (count, c :: cs)

/-- What follows a run of at least one digit. -/
def digits (hex : Bool) (cs : List Char) : Option (List Char) :=
  match digitRun hex 0 false cs with
  | some (0, _) => none
  | some (_, rest) => some rest
  | none => none

/-- What follows the fraction, which may be missing or have no digits. -/
def fraction (hex : Bool) : List Char → Option (List Char)
  | '.' :: cs => (digitRun hex 0 false cs).map Prod.snd
  | cs => some cs

/-- The letters that open an exponent. -/
def isExponentMark (hex : Bool) (c : Char) : Bool :=
  if hex then c == 'p' || c == 'P' else c == 'e' || c == 'E'

/-- Drops one sign. -/
def dropSign : List Char → List Char
  | '+' :: cs => cs
  | '-' :: cs => cs
  | cs => cs

/-- What follows the exponent, which may be missing. -/
def exponent (hex : Bool) : List Char → Option (List Char)
  | c :: cs => if isExponentMark hex c then digits false (dropSign cs) else some (c :: cs)
  | [] => some []

/-- Whether the characters are an unsigned integer or float in one radix. -/
def isMagnitude (hex : Bool) (cs : List Char) : Bool :=
  match digits hex cs with
  | none => false
  | some cs =>
    match fraction hex cs with
    | none => false
    | some cs => exponent hex cs == some []

/-- Drops all leading signs. -/
def dropSigns (cs : List Char) : List Char := cs.dropWhile fun c => c == '+' || c == '-'

/-- Whether the characters are a number after their sign. -/
def isUnsignedNumber (cs : List Char) : Bool :=
  match cs with
  | ['i', 'n', 'f'] => true
  | ['n', 'a', 'n'] => true
  | 'n' :: 'a' :: 'n' :: ':' :: '0' :: 'x' :: payload => digits true payload == some []
  | '0' :: 'x' :: body => isMagnitude true body
  | _ => isMagnitude false cs

/-- Whether the characters are a number: at most one sign before it. -/
def isNumber (cs : List Char) : Bool :=
  let unsigned := dropSigns cs
  cs.length - unsigned.length ≤ 1 && isUnsignedNumber unsigned

/-- Whether a word, after its signs, is meant to be a number. -/
def looksNumeric (cs : List Char) : Bool :=
  match dropSigns cs with
  | ['i', 'n', 'f'] => true
  | ['n', 'a', 'n'] => true
  | 'n' :: 'a' :: 'n' :: ':' :: _ => true
  | c :: _ => isDigit false c
  | [] => false

/-- The sign of a spelling and what follows it. -/
def splitSign : List Char → Bool × List Char
  | '-' :: cs => (true, cs)
  | '+' :: cs => (false, cs)
  | cs => (false, cs)

/-- The characters without underscores. -/
def dropUnderscores (cs : List Char) : List Char := cs.filter (· != '_')

/-- The value of an unsigned integer spelling below `2 ^ 64`. -/
def magnitude? (cs : List Char) : Option Nat :=
  match dropUnderscores cs with
  | '0' :: 'x' :: hex => Text.unsigned? 16 UInt64.size hex
  | decimal => Text.unsigned? 10 UInt64.size decimal

/-- An unsigned index or limit. -/
def parseU32? (s : String) : Option Nat :=
  match s.toList with
  | '+' :: _ => none
  | '-' :: _ => none
  | cs => (magnitude? cs).filter (· < UInt32.size)

/-- An integer of `bits` bits: the negative half and the whole unsigned range are allowed, and the
upper half of the latter stands for negative numbers. -/
def parseInt? (bits : Nat) (s : String) : Option Int :=
  let (negative, body) := splitSign s.toList
  match magnitude? body with
  | none => none
  | some n =>
    if negative then if n ≤ 1 <<< (bits - 1) then some (-(n : Int)) else none
    else if n < 1 <<< bits then some (Int.bmod n (1 <<< bits)) else none

/-- A float of some format as a bit pattern.  The payload of a NaN must fit its fraction field. -/
def parseFloat? (f : FloatFormat) (s : String) : Option Nat :=
  let (negative, body) := splitSign s.toList
  match body with
  | ['i', 'n', 'f'] => some (f.withSign negative f.infinity)
  | ['n', 'a', 'n'] => some (f.withSign negative f.quietNan)
  | 'n' :: 'a' :: 'n' :: ':' :: '0' :: 'x' :: payload =>
    match Text.unsigned? 16 f.hidden (dropUnderscores payload) with
    | some 0 => none
    | some n => some (f.withSign negative (f.infinity + n))
    | none => none
  | '0' :: 'x' :: hex => some (f.withSign negative ((f.readHex? (dropUnderscores hex)).getD 0))
  | decimal => some (f.readDecimal negative (dropUnderscores decimal))

end WasmEngine.Wat
