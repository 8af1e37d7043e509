/-!
JSON values. Numbers keep their digits and objects keep every field in order,
also repeated ones, so that a reader of configurations can tell `1` from `1.0`
and can refuse a field that occurs twice.
-/

namespace ShaderGen

/-- A number as it is written: a sign, digits before and after the point, and an
exponent. -/
structure Numeral where
  negative : Bool := false
  whole : List Nat
  /-- The digits after the point, if there is one. -/
  fraction : Option (List Nat) := none
  /-- The sign of the exponent and its digits, if there is one. -/
  exponent : Option (Bool × List Nat) := none
deriving DecidableEq, Repr

/-- A JSON value. A string is `none` where escapes name half of a surrogate pair,
which no text can hold. -/
inductive Json where
  | null
  | bool (value : Bool)
  | number (value : Numeral)
  | string (value : Option String)
  | array (items : List Json)
  | object (fields : List (Option String × Json))

namespace Json

/-- The value of a text. -/
def text (s : String) : Json := string (some s)

/-- The value of a natural number. -/
def nat (n : Nat) : Json := number { whole := (Nat.toDigits 10 n).map fun c => c.toNat - '0'.toNat }

/-- The value of an integer. -/
def int (n : Int) : Json :=
  number { negative := n < 0, whole := (Nat.toDigits 10 n.natAbs).map fun c => c.toNat - '0'.toNat }

/-- The object with the given fields. -/
def record (fields : List (String × Json)) : Json :=
  object (fields.map fun (name, value) => (some name, value))

/-- The first field of a name. -/
def field? (name : String) : Json → Option Json
  | object fields => (fields.find? fun (key, _) => key == some name).map Prod.snd
  | _ => none

/-- The text of a string. -/
def text? : Json → Option String
  | string value => value
  | _ => none

/-- The items of an array. -/
def items? : Json → Option (List Json)
  | array items => some items
  | _ => none

/-- The value of a boolean. -/
def bool? : Json → Option Bool
  | bool value => some value
  | _ => none

end Json

end ShaderGen
