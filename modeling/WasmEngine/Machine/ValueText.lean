import WasmEngine.Machine.Value
import WasmEngine.Text.Split

/-!
# The exact text of a value

A type, a colon, and an integer in decimal with its sign or the bit pattern of a float in hexadecimal.
-/

namespace WasmEngine.Value

/-- The text that gives a value back exactly. -/
def exactText : Value → String
  | i32 b => s!"i32:{b.toInt}"
  | i64 b => s!"i64:{b.toInt}"
  | f32 b => "f32:" ++ Text.hexFixed 8 b.toNat
  | f64 b => "f64:" ++ Text.hexFixed 16 b.toNat

/-- The text of a value where one NaN is as good as another. -/
def canonicalText (v : Value) : String := if v.isNan then v.type.name ++ ":nan" else v.exactText

/-- The value of an exact text. -/
def ofExactText? (s : String) : Option Value := do
  let (t, digits) ← Text.cut? ':' s
  match ← Valtype.ofName? t with
  | .i32 => return ofInt .i32 (← digits.toInt?)
  | .i64 => return ofInt .i64 (← digits.toInt?)
  | t => return ofBits t (← Text.digits? 16 digits.toList)

end WasmEngine.Value
