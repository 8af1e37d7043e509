import ShaderGen.Json.Basic

/-!
Writing JSON, either without blanks or with one item a line, two more blanks for
each level and a blank after the colon.
-/

namespace ShaderGen

/-- The digits of a number. -/
def Numeral.digitText (digits : List Nat) : String := String.join (digits.map toString)

/-- A number as it is written. -/
def Numeral.render (n : Numeral) : String :=
  (if n.negative then "-" else "") ++ digitText n.whole ++
    (match n.fraction with
      | none => ""
      | some digits => "." ++ digitText digits) ++
    (match n.exponent with
      | none => ""
      | some (negative, digits) => "e" ++ (if negative then "-" else "") ++ digitText digits)

namespace Json

/-- A hexadecimal digit. -/
def hexDigit (n : Nat) : Char := Char.ofNat (if n < 10 then 48 + n else 87 + n)

/-- A character inside a string. -/
def escapeChar (c : Char) : String :=
  match c with
  | '"' => "\\\""
  | '\\' => "\\\\"
  | '\n' => "\\n"
  | '\r' => "\\r"
  | '\t' => "\\t"
  | '\x08' => "\\b"
  | '\x0c' => "\\f"
  | c =>
    if c.toNat < 0x20 then
      "\\u00" ++ String.ofList [hexDigit (c.toNat / 16), hexDigit (c.toNat % 16)]
    else c.toString

/-- A string with its quotes. -/
def quote (s : String) : String :=
  "\"" ++ s.toList.foldl (fun out c => out ++ escapeChar c) "" ++ "\""

mutual

/-- A value without blanks. -/
def render : Json → String
  | null => "null"
  | bool value => if value then "true" else "false"
  | number n => n.render
  | string value => quote (value.getD "")
  | array items => "[" ++ renderItems items ++ "]"
  | object fields => "\x7b" ++ renderFields fields ++ "\x7d"

/-- The items of an array. -/
def renderItems : List Json → String
  | [] => ""
  | [item] => render item
  | item :: items => render item ++ "," ++ renderItems items

/-- The fields of an object. -/
def renderFields : List (Option String × Json) → String
  | [] => ""
  | [(key, value)] => quote (key.getD "") ++ ":" ++ render value
  | (key, value) :: fields =>
    quote (key.getD "") ++ ":" ++ render value ++ "," ++ renderFields fields

end

/-- The start of a line at a level. -/
def indent (level : Nat) : String := "".pushn ' ' (2 * level)

mutual

/-- A value that starts on a line of the given level. -/
def prettyAt (level : Nat) : Json → String
  | array [] => "[]"
  | array (item :: items) =>
    "[\n" ++ prettyItems (level + 1) (item :: items) ++ "\n" ++ indent level ++ "]"
  | object [] => "\x7b\x7d"
  | object (field :: fields) =>
    "\x7b\n" ++ prettyFields (level + 1) (field :: fields) ++ "\n" ++ indent level ++ "\x7d"
  | null => "null"
  | bool value => if value then "true" else "false"
  | number n => n.render
  | string value => quote (value.getD "")

/-- The items of an array, one a line. -/
def prettyItems (level : Nat) : List Json → String
  | [] => ""
  | [item] => indent level ++ prettyAt level item
  | item :: items => indent level ++ prettyAt level item ++ ",\n" ++ prettyItems level items

/-- The fields of an object, one a line. -/
def prettyFields (level : Nat) : List (Option String × Json) → String
  | [] => ""
  | [(key, value)] => indent level ++ quote (key.getD "") ++ ": " ++ prettyAt level value
  | (key, value) :: fields =>
    indent level ++ quote (key.getD "") ++ ": " ++ prettyAt level value ++ ",\n" ++
      prettyFields level fields

end

/-- A value over several lines. -/
def pretty (value : Json) : String := prettyAt 0 value

end Json

end ShaderGen
