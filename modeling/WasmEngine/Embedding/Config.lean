import WasmEngine.Binary.Decoder
import WasmEngine.Json.Reader

/-!
# Configuration

The settings of an engine and their JSON form.  A record is written as an object or as the array of
its fields in order; fields that are left out keep their defaults.
-/

namespace WasmEngine

/-- The settings of an engine. -/
structure Config where
  /-- The greatest number of frames of a run. -/
  maxDepth : Nat
  /-- Whether 64-bit integers may not cross the boundary to the host. -/
  refuseI64 : Bool
  decoder : Binary.DecoderOptions
  deriving DecidableEq, Repr

namespace Config

/-- The settings that hold if nothing else is said. -/
def default : Config := ⟨300, false, .default⟩

/-- A field of a record: its name, and how a record takes its value. -/
abbrev Field (α : Type) := String × (α → Json → Option α)

/-- Reads the members of an object into a record.  A field may come once; other members are passed
over. -/
def readMembers {α : Type} (fields : List (Field α)) (seen : List String) (record : α) :
    List (String × Json) → Option α
  | [] => some record
  | (key, value) :: members =>
    match fields.lookup key with
    | none => readMembers fields seen record members
    | some put =>
      if seen.contains key then none
      else (put record value).bind fun record => readMembers fields (key :: seen) record members

/-- Reads the items of an array into the fields of a record. -/
def readItems {α : Type} : List (Field α) → α → List Json → Option α
  | _, record, [] => some record
  | [], _, _ :: _ => none
  | (_, put) :: fields, record, item :: items =>
    (put record item).bind fun record => readItems fields record items

/-- Reads a record. -/
def readRecord {α : Type} (fields : List (Field α)) (record : α) : Json → Option α
  | .obj members => readMembers fields [] record members
  | .arr items => readItems fields record items
  | _ => none

/-- A truth value. -/
def readBool : Json → Option Bool
  | .bool b => some b
  | _ => none

/-- A natural number below `2 ^ 64`. -/
def readNat : Json → Option Nat
  | .int n => if 0 ≤ n ∧ n < UInt64.size then some n.toNat else none
  | _ => none

/-- The fields of the decoder settings. -/
def decoderFields : List (Field Binary.DecoderOptions) :=
  [("dump", fun o v => (readBool v).map fun b => { o with dump := b }),
    ("ignore_code_section", fun o v => (readBool v).map fun b => { o with ignoreCodeSection := b }),
    ("ignore_data_section", fun o v => (readBool v).map fun b => { o with ignoreDataSection := b }),
    ("ignore_custom_name_section",
      fun o v => (readBool v).map fun b => { o with ignoreNameSection := b })]

/-- The fields of the settings. -/
def fields : List (Field Config) :=
  [("max_call_depth", fun c v => (readNat v).map fun n => { c with maxDepth := n }),
    ("check_for_i64_in_signature", fun c v => (readBool v).map fun b => { c with refuseI64 := b }),
    ("decoder",
      fun c v => (readRecord decoderFields .default v).map fun d => { c with decoder := d })]

/-- The settings that a JSON value describes. -/
def ofJson? (json : Json) : Option Config := readRecord fields default json

/-- The settings that a JSON text describes. -/
def parse? (text : String) : Option Config := (Json.parse? text).bind ofJson?

end Config

end WasmEngine
