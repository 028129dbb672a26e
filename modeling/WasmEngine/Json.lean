import WasmEngine.Text.Digits

/-!
# JSON values

The value type shared by the configuration reader and the printed form of a program.  Objects keep
their members in the order in which they were written, repeated keys included.
-/

namespace WasmEngine

/-- A JSON value.  A number that is not written as an integer keeps only its spelling. -/
inductive Json where
  | null
  | bool (value : Bool)
  | int (value : Int)
  | real (spelling : String)
  | str (text : String)
  | arr (items : List Json)
  | obj (members : List (String × Json))

namespace Json

/-- The first member of that name. -/
def member? (key : String) : Json → Option Json
  | obj members => (members.find? fun m => m.1 == key).map Prod.snd
  | _ => none

/-- A natural number. -/
def nat (n : Nat) : Json := int n

/-- A value or null. -/
def ofOption {α : Type} (f : α → Json) : Option α → Json
  | some a => f a
  | none => null

/-- An array of encoded items. -/
def ofList {α : Type} (f : α → Json) (items : List α) : Json := arr (items.map f)

end Json

end WasmEngine

/-! ## Printing

Two layouts: everything on one line, and one item per line indented by two spaces.  Both escape the
quotation mark, the backslash and the control characters, and nothing else.
-/

namespace WasmEngine.Json

/-- One character inside a string literal. -/
def escapeChar (c : Char) : String :=
  if c = '"' then "\\\""
  else if c = '\\' then "\\\\"
  else if c = '\x08' then "\\b"
  else if c = '\x0c' then "\\f"
  else if c = '\n' then "\\n"
  else if c = '\r' then "\\r"
  else if c = '\t' then "\\t"
  else if c.toNat < 0x20 then "\\u" ++ Text.hexFixed 4 c.toNat
  else c.toString

/-- A string literal with its quotation marks. -/
def quote (s : String) : String :=
  "\"" ++ s.foldl (fun acc c => acc ++ escapeChar c) "" ++ "\""

mutual

/-- The value on one line without blanks. -/
def compact : Json → String
  | null => "null"
  | bool b => if b then "true" else "false"
  | int n => toString n
  | real s => s
  | str s => quote s
  | arr items => "[" ++ compactItems items ++ "]"
  | obj members => "\x7b" ++ compactMembers members ++ "\x7d"

/-- Array items separated by commas. -/
def compactItems : List Json → String
  | [] => ""
  | [item] => compact item
  | item :: items => compact item ++ "," ++ compactItems items

/-- Object members separated by commas. -/
def compactMembers : List (String × Json) → String
  | [] => ""
  | [(key, value)] => quote key ++ ":" ++ compact value
  | (key, value) :: members => quote key ++ ":" ++ compact value ++ "," ++ compactMembers members

end

/-- A line break followed by two blanks per level. -/
def newline (level : Nat) : String := "\n" ++ String.ofList (List.replicate (2 * level) ' ')

mutual

/-- The value with one item per line, starting at an indentation level. -/
def pretty (level : Nat) : Json → String
  | arr (item :: items) =>
    "[" ++ newline (level + 1) ++ pretty (level + 1) item ++ prettyItems (level + 1) items
      ++ newline level ++ "]"
  | obj ((key, value) :: members) =>
    "\x7b" ++ newline (level + 1) ++ quote key ++ ": " ++ pretty (level + 1) value
      ++ prettyMembers (level + 1) members ++ newline level ++ "\x7d"
  | null => "null"
  | bool b => if b then "true" else "false"
  | int n => toString n
  | real s => s
  | str s => quote s
  | arr [] => "[]"
  | obj [] => "\x7b\x7d"

/-- Array items after the first. -/
def prettyItems (level : Nat) : List Json → String
  | [] => ""
  | item :: items => "," ++ newline level ++ pretty level item ++ prettyItems level items

/-- Object members after the first. -/
def prettyMembers (level : Nat) : List (String × Json) → String
  | [] => ""
  | (key, value) :: members =>
    "," ++ newline level ++ quote key ++ ": " ++ pretty level value ++ prettyMembers level members

end

end WasmEngine.Json

/-! ## Shapes

Readers that take a JSON value apart.  A value of another form than expected is refused with the name
of the form.
-/

namespace WasmEngine

/-- A JSON value that has another form than the one named here. -/
structure ShapeError where
  expected : String
  deriving DecidableEq, Repr

/-- What a reader makes of a value. -/
abbrev Shaped (α : Type) := Except ShapeError α

namespace Json

variable {α : Type}

/-- Refuses a value. -/
def refuse (expected : String) : Shaped α := .error ⟨expected⟩

/-- What was found, or a refusal. -/
def expect (expected : String) : Option α → Shaped α
  | some a => .ok a
  | none => refuse expected

/-- A member, which is null if it is left out. -/
def part (j : Json) (key : String) : Json := (j.member? key).getD null

/-- The items of an array; a list that is left out has none. -/
def items : Json → Shaped (List Json)
  | arr items => .ok items
  | null => .ok []
  | _ => refuse "array"

/-- A text. -/
def text : Json → Shaped String
  | str s => .ok s
  | _ => refuse "string"

/-- An integer, or its decimal text. -/
def integer : Json → Shaped Int
  | int n => .ok n
  | str s => expect "integer" s.toInt?
  | _ => refuse "integer"

/-- A natural number, or its decimal text. -/
def natural (j : Json) : Shaped Nat := do
  let n ← j.integer
  if n < 0 then refuse "natural number" else return n.toNat

/-- A truth value; one that is left out is false. -/
def truth : Json → Shaped Bool
  | bool b => .ok b
  | null => .ok false
  | _ => refuse "truth value"

/-- A value that may be left out. -/
def optional (f : Json → Shaped α) : Json → Shaped (Option α)
  | null => .ok none
  | j => some <$> f j

/-- A list of values. -/
def list (f : Json → Shaped α) (j : Json) : Shaped (List α) := do (← j.items).mapM f

mutual

/-- How deep arrays and objects are nested in a value. -/
def depth : Json → Nat
  | arr items => depthOfItems items + 1
  | obj members => depthOfMembers members + 1
  | _ => 0

/-- How deep arrays and objects are nested in the items of an array. -/
def depthOfItems : List Json → Nat
  | [] => 0
  | item :: items => max item.depth (depthOfItems items)

/-- How deep arrays and objects are nested in the members of an object. -/
def depthOfMembers : List (String × Json) → Nat
  | [] => 0
  | (_, value) :: members => max value.depth (depthOfMembers members)

end

end Json

/-- A type whose values have a JSON form. -/
class OfJson (α : Type) where
  /-- The value of a form. -/
  ofJson : Json → Shaped α

/-- The value of a member. -/
def Json.get {α : Type} [OfJson α] (j : Json) (key : String) : Shaped α :=
  OfJson.ofJson (j.part key)

instance : OfJson String := ⟨Json.text⟩

instance : OfJson Int := ⟨Json.integer⟩

instance : OfJson Nat := ⟨Json.natural⟩

instance : OfJson Bool := ⟨Json.truth⟩

instance : OfJson UInt8 where
  ofJson j := return .ofNat (← j.natural)

instance {α : Type} [OfJson α] : OfJson (Option α) := ⟨Json.optional OfJson.ofJson⟩

instance {α : Type} [OfJson α] : OfJson (List α) := ⟨Json.list OfJson.ofJson⟩

end WasmEngine
