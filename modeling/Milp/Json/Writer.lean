/-
  Writing JSON text, without blanks.

  * `Json.render`: the text of a value.
  * A scalar is written with a point, so that it does not read back as a whole number.
-/
import Milp.Json.Basic
import Milp.Decimal.Text

namespace Milp.Json

variable {F : Type}

/-- One character of a string.  Quotes, backslashes and control characters are escaped. -/
def escape (c : Char) : String :=
  if c = '"' then "\\\""
  else if c = '\\' then "\\\\"
  else if c = '\n' then "\\n"
  else if c = '\r' then "\\r"
  else if c = '\t' then "\\t"
  else if c.toNat < 0x20 then
    "\\u00" ++ String.ofList [Nat.digitChar (c.toNat / 16), Nat.digitChar (c.toNat % 16)]
  else String.singleton c

/-- A string in quotes. -/
def quote (s : String) : String := "\"" ++ String.join (s.toList.map escape) ++ "\""

/-- A finite scalar with a point. -/
def scalarText [Legible F] (x : F) : String :=
  let text := Legible.plain x
  if text.toList.contains '.' then text else text ++ ".0"

mutual

/-- The text of a value. -/
def render [Legible F] : Json F → String
  | null => "null"
  | bool b => if b then "true" else "false"
  | whole n => toString n
  | real x => scalarText x
  | string s => quote s
  | array items => "[" ++ ",".intercalate (renderItems items) ++ "]"
  | object fields => "\x7b" ++ ",".intercalate (renderFields fields) ++ "\x7d"

/-- The texts of the items of an array. -/
def renderItems [Legible F] : List (Json F) → List String
  | [] => []
  | v :: rest => render v :: renderItems rest

/-- The texts of the fields of an object. -/
def renderFields [Legible F] : List (String × Json F) → List String
  | [] => []
  | (name, v) :: rest => (quote name ++ ":" ++ render v) :: renderFields rest

end

end Milp.Json
