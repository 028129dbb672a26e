/-!
# Splitting texts at a character
-/

namespace WasmEngine.Text

/-- The characters before and after the first `c`; nothing if there is none. -/
def cutChars? (c : Char) : List Char → Option (List Char × List Char)
  | [] => none
  | d :: ds => if d = c then some ([], ds) else (cutChars? c ds).map fun p => (d :: p.1, p.2)

/-- The text before and after the first `c`. -/
def cut? (c : Char) (s : String) : Option (String × String) :=
  (cutChars? c s.toList).map fun p => (String.ofList p.1, String.ofList p.2)

/-- The pieces between the occurrences of `c`, one more than there are occurrences. -/
def pieces (c : Char) : List Char → List (List Char)
  | [] => [[]]
  | d :: ds =>
    if d = c then [] :: pieces c ds
    else match pieces c ds with
      | [] => [[d]]
      | p :: ps => (d :: p) :: ps

/-- The texts between the occurrences of `c`. -/
def splitBy (c : Char) (s : String) : List String := (pieces c s.toList).map String.ofList

/-- The rest of a text after a fixed beginning. -/
def after? (start s : String) : Option String :=
  if start.toList.isPrefixOf s.toList then some (String.ofList (s.toList.drop start.length)) else none

/-- Whether a text begins with another. -/
def beginsWith (start s : String) : Bool := start.toList.isPrefixOf s.toList

end WasmEngine.Text
