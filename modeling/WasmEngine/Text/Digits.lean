/-!
# Digits

Writing and reading of natural numbers in a radix.  Reading follows the strict rule used for every
number in the engine: an optional single `+`, at least one digit, no digit outside the radix.
-/

namespace WasmEngine.Text

/-- The value of a digit in the widest radix, sixteen. -/
def hexDigit? (c : Char) : Option Nat :=
  if '0' ≤ c ∧ c ≤ '9' then some (c.toNat - '0'.toNat)
  else if 'a' ≤ c ∧ c ≤ 'f' then some (c.toNat - 'a'.toNat + 10)
  else if 'A' ≤ c ∧ c ≤ 'F' then some (c.toNat - 'A'.toNat + 10)
  else none

/-- The value of a digit below `radix`. -/
def digit? (radix : Nat) (c : Char) : Option Nat :=
  (hexDigit? c).filter (· < radix)

/-- The number spelled by a run of digits, read after the digits that make up `acc`. -/
def foldDigits? (radix : Nat) : Nat → List Char → Option Nat
  | acc, [] => some acc
  | acc, c :: cs =>
    match digit? radix c with
    | some d => foldDigits? radix (acc * radix + d) cs
    | none => none

/-- The number spelled by a non-empty run of digits. -/
def digits? (radix : Nat) (cs : List Char) : Option Nat :=
  if cs.isEmpty then none else foldDigits? radix 0 cs

/-- A number with an optional leading `+`, refused from `bound` on. -/
def unsigned? (radix bound : Nat) (cs : List Char) : Option Nat :=
  let body := match cs with
    | '+' :: rest => rest
    | _ => cs
  (digits? radix body).filter (· < bound)

/-- Lower-case hexadecimal digits without padding. -/
def hex (n : Nat) : String := String.ofList (Nat.toDigits 16 n)

/-- Lower-case hexadecimal digits after `0x`. -/
def hex0x (n : Nat) : String := "0x" ++ hex n

/-- Pads a text on the left with `c` up to `width` characters. -/
def padLeft (width : Nat) (c : Char) (s : String) : String :=
  String.ofList (List.replicate (width - s.length) c) ++ s

/-- Exactly `width` lower-case hexadecimal digits for numbers that fit. -/
def hexFixed (width n : Nat) : String := padLeft width '0' (hex n)

end WasmEngine.Text
