/-
  Reading JSON text.

  * `Json.parse`: the value of a text, if the text is well formed.
  * A number without a point and without an exponent is whole if it fits into 64 bits, signed or
    not; every other number, and `-0`, is a scalar.  A number that is too large for a scalar is
    refused.
  * A reader of a part returns its value and the text after it.
  * Of two fields with one name the later one counts.
-/
import Milp.Json.Basic

namespace Milp.Json

variable {F : Type}

/-- Blanks between the parts of a text. -/
def skip : List Char → List Char :=
  List.dropWhile fun c => c = ' ' || c = '\t' || c = '\n' || c = '\r'

/-- The value of a list of decimal digits. -/
def digitsValue (ds : List Char) : Nat :=
  ds.foldl (fun n c => 10 * n + (c.toNat - '0'.toNat)) 0

/-- The value of a hexadecimal digit. -/
def hexValue (c : Char) : Option Nat :=
  if c.isDigit then some (c.toNat - '0'.toNat)
  else if 'a' ≤ c && c ≤ 'f' then some (c.toNat - 'a'.toNat + 10)
  else if 'A' ≤ c && c ≤ 'F' then some (c.toNat - 'A'.toNat + 10)
  else none

/-- Four hexadecimal digits. -/
def hex4 : List Char → Option (Nat × List Char)
  | a :: b :: c :: d :: rest => do
    let a ← hexValue a
    let b ← hexValue b
    let c ← hexValue c
    let d ← hexValue d
    return (((a * 16 + b) * 16 + c) * 16 + d, rest)
  | _ => none

/-- The character of an escape `u`.  Two escapes may spell one character beyond the first plane;
    half of such a pair is no character. -/
def unicode (cs : List Char) : Option (Char × List Char) := do
  let (high, rest) ← hex4 cs
  if 0xD800 ≤ high && high < 0xDC00 then
    match rest with
    | '\\' :: 'u' :: rest =>
      let (low, rest) ← hex4 rest
      if 0xDC00 ≤ low && low < 0xE000 then
        return (Char.ofNat (0x10000 + (high - 0xD800) * 0x400 + (low - 0xDC00)), rest)
      else none
    | _ => none
  else if 0xDC00 ≤ high && high < 0xE000 then none
  else return (Char.ofNat high, rest)

/-- The rest of a string after its opening quote.  The characters so far come in reverse; every
    step takes at least one character, so the length bounds the number of steps. -/
def stringRest : Nat → List Char → List Char → Option (String × List Char)
  | 0, _, _ => none
  | _ + 1, _, [] => none
  | _ + 1, acc, '"' :: rest => some (String.ofList acc.reverse, rest)
  | k + 1, acc, '\\' :: c :: rest =>
    match c with
    | '"' => stringRest k ('"' :: acc) rest
    | '\\' => stringRest k ('\\' :: acc) rest
    | '/' => stringRest k ('/' :: acc) rest
    | 'b' => stringRest k ('\x08' :: acc) rest
    | 'f' => stringRest k ('\x0c' :: acc) rest
    | 'n' => stringRest k ('\n' :: acc) rest
    | 'r' => stringRest k ('\r' :: acc) rest
    | 't' => stringRest k ('\t' :: acc) rest
    | 'u' => unicode rest >>= fun (c, rest) => stringRest k (c :: acc) rest
    | _ => none
  | k + 1, acc, c :: rest => if c.toNat < 0x20 then none else stringRest k (c :: acc) rest

/-- Digits after a point: at least one if there is a point. -/
def fraction : List Char → Option (Option (List Char) × List Char)
  | '.' :: cs =>
    let ds := cs.takeWhile Char.isDigit
    if ds.isEmpty then none else some (some ds, cs.dropWhile Char.isDigit)
  | cs => some (none, cs)

/-- The digits of an exponent and its sign, if there is one. -/
def exponent : List Char → Option (Option Int × List Char)
  | c :: cs =>
    if c = 'e' || c = 'E' then
      let (negative, cs) :=
        match cs with
        | '-' :: cs => (true, cs)
        | '+' :: cs => (false, cs)
        | cs => (false, cs)
      let ds := cs.takeWhile Char.isDigit
      if ds.isEmpty then none
      else
        let n : Int := digitsValue ds
        some (some (if negative then -n else n), cs.dropWhile Char.isDigit)
    else some (none, c :: cs)
  | [] => some (none, [])

/-- The number `± digits · 10^e`. -/
def realNumber [Scalar F] (negative : Bool) (digits : Nat) (e : Int) : Option (Json F) :=
  let x : F := Scalar.ofDecimal digits (decide (e < 0)) e.natAbs
  if Scalar.isFinite x then some (real (if negative then -x else x)) else none

/-- A number.  It has no zero in front of other digits. -/
def number [Scalar F] (cs : List Char) : Option (Json F × List Char) := do
  let (negative, cs) :=
    match cs with
    | '-' :: cs => (true, cs)
    | cs => (false, cs)
  let ds := cs.takeWhile Char.isDigit
  if ds.isEmpty || (ds.head? = some '0' && ds.length ≠ 1) then none
  let (frac, cs) ← fraction (cs.dropWhile Char.isDigit)
  let (exp, cs) ← exponent cs
  let n := digitsValue (ds ++ frac.getD [])
  let fits := if negative then n ≠ 0 && n ≤ UInt64.size / 2 else n < UInt64.size
  if frac.isNone && exp.isNone && fits then
    return (whole (if negative then -(n : Int) else n), cs)
  let e := exp.getD 0 - ((frac.getD []).length : Int)
  return (← realNumber negative n e, cs)

/-- Put a field into an object; an earlier field with the name goes. -/
def putField (fields : List (String × Json F)) (name : String) (value : Json F) :
    List (String × Json F) :=
  fields.filter (fun f => f.1 ≠ name) ++ [(name, value)]

mutual

/-- A value.  Its parts are shorter, so the length of the text bounds the depth and the number of
    the steps. -/
def value [Scalar F] : Nat → List Char → Option (Json F × List Char)
  | 0, _ => none
  | k + 1, cs =>
    match skip cs with
    | '{' :: rest =>
      match skip rest with
      | '}' :: rest => some (object [], rest)
      | rest => fields k [] rest
    | '[' :: rest =>
      match skip rest with
      | ']' :: rest => some (array [], rest)
      | rest => items k [] rest
    | '"' :: rest => (stringRest (rest.length + 1) [] rest).map fun (s, rest) => (string s, rest)
    | 't' :: 'r' :: 'u' :: 'e' :: rest => some (bool true, rest)
    | 'f' :: 'a' :: 'l' :: 's' :: 'e' :: rest => some (bool false, rest)
    | 'n' :: 'u' :: 'l' :: 'l' :: rest => some (null, rest)
    | rest => number rest

/-- The rest of an array; the items so far come in reverse. -/
def items [Scalar F] : Nat → List (Json F) → List Char → Option (Json F × List Char)
  | 0, _, _ => none
  | k + 1, acc, cs => do
    let (v, rest) ← value k cs
    match skip rest with
    | ',' :: rest => items k (v :: acc) rest
    | ']' :: rest => return (array (v :: acc).reverse, rest)
    | _ => none

/-- The rest of an object. -/
def fields [Scalar F] : Nat → List (String × Json F) → List Char → Option (Json F × List Char)
  | 0, _, _ => none
  | k + 1, acc, cs =>
    match skip cs with
    | '"' :: rest => do
      let (name, rest) ← stringRest (rest.length + 1) [] rest
      match skip rest with
      | ':' :: rest =>
        let (v, rest) ← value k rest
        match skip rest with
        | ',' :: rest => fields k (putField acc name v) rest
        | '}' :: rest => return (object (putField acc name v), rest)
        | _ => none
      | _ => none
    | _ => none

end

/-- The value of a text. -/
def parse [Scalar F] (text : String) : Option (Json F) := do
  let cs := text.toList
  let (v, rest) ← value (cs.length + 1) cs
  if (skip rest).isEmpty then return v else none

end Milp.Json
