import ShaderGen.Json.Basic

/-!
Reading JSON, strictly: nothing but one value and blanks around it. Each reader
answers what it read and the characters after it.
-/

namespace ShaderGen.Json

/-- The blanks between tokens. -/
def isSpace (c : Char) : Bool := c == ' ' || c == '\n' || c == '\t' || c == '\r'

/-- The text from its first character that is no blank. -/
def skipSpace (cs : List Char) : List Char := cs.dropWhile isSpace

/-- The text after a word it starts with. -/
def expect? : List Char → List Char → Option (List Char)
  | [], cs => some cs
  | w :: ws, c :: cs => if w = c then expect? ws cs else none
  | _ :: _, [] => none

/-- The value of a hexadecimal digit. -/
def hexDigit? (c : Char) : Option Nat :=
  if c.isDigit then some (c.toNat - '0'.toNat)
  else if 'a' ≤ c ∧ c ≤ 'f' then some (c.toNat - 'a'.toNat + 10)
  else if 'A' ≤ c ∧ c ≤ 'F' then some (c.toNat - 'A'.toNat + 10)
  else none

/-- The character a short escape stands for. -/
def shortEscape? : Char → Option Char
  | '"' => some '"'
  | '\\' => some '\\'
  | '/' => some '/'
  | 'b' => some '\x08'
  | 'f' => some '\x0c'
  | 'n' => some '\n'
  | 'r' => some '\r'
  | 't' => some '\t'
  | _ => none

/-- A piece of a string: a character, or a code unit given by number. -/
inductive Piece where
  | char (c : Char)
  | unit (n : Nat)

/-- The pieces up to the closing quote, after those already read, last first. -/
def readPieces (done : List Piece) : List Char → Option (List Piece × List Char)
  | [] => none
  | '"' :: cs => some (done.reverse, cs)
  | '\\' :: 'u' :: a :: b :: c :: d :: cs =>
    match hexDigit? a, hexDigit? b, hexDigit? c, hexDigit? d with
    | some a, some b, some c, some d =>
      readPieces (.unit (((a * 16 + b) * 16 + c) * 16 + d) :: done) cs
    | _, _, _, _ => none
  | '\\' :: e :: cs =>
    match shortEscape? e with
    | some c => readPieces (.char c :: done) cs
    | none => none
  | c :: cs => if c.toNat < 0x20 || c == '\\' then none else readPieces (.char c :: done) cs

/-- The characters of pieces, after those already joined, last first. Two code
units in a row may form one character; a lone half of such a pair forms none. -/
def joinPieces (done : List Char) : List Piece → Option (List Char)
  | [] => some done.reverse
  | .char c :: ps => joinPieces (c :: done) ps
  | .unit n :: ps =>
    if 0xD800 ≤ n ∧ n < 0xDC00 then
      match ps with
      | .unit m :: ps =>
        if 0xDC00 ≤ m ∧ m < 0xE000 then
          joinPieces (Char.ofNat (0x10000 + (n - 0xD800) * 0x400 + (m - 0xDC00)) :: done) ps
        else none
      | _ => none
    else if 0xDC00 ≤ n ∧ n < 0xE000 then none
    else joinPieces (Char.ofNat n :: done) ps

/-- A string, after its opening quote. -/
def readString (cs : List Char) : Option (Option String × List Char) := do
  let (pieces, cs) ← readPieces [] cs
  some ((joinPieces [] pieces).map String.ofList, cs)

/-- The digits at the head of a text. -/
def readDigits (cs : List Char) : List Nat × List Char :=
  ((cs.takeWhile Char.isDigit).map fun c => c.toNat - '0'.toNat, cs.dropWhile Char.isDigit)

/-- Digits of which there must be one. -/
def readSomeDigits (cs : List Char) : Option (List Nat × List Char) :=
  match readDigits cs with
  | ([], _) => none
  | read => some read

/-- The point and the digits after it, if a point comes next. -/
def readFraction : List Char → Option (Option (List Nat) × List Char)
  | '.' :: cs => (readSomeDigits cs).map fun (digits, cs) => (some digits, cs)
  | cs => some (none, cs)

/-- The sign and digits of an exponent, after its mark. -/
def readExponentDigits : List Char → Option (Option (Bool × List Nat) × List Char)
  | '-' :: cs => (readSomeDigits cs).map fun (digits, cs) => (some (true, digits), cs)
  | '+' :: cs => (readSomeDigits cs).map fun (digits, cs) => (some (false, digits), cs)
  | cs => (readSomeDigits cs).map fun (digits, cs) => (some (false, digits), cs)

/-- The exponent, if its mark comes next. -/
def readExponent : List Char → Option (Option (Bool × List Nat) × List Char)
  | 'e' :: cs => readExponentDigits cs
  | 'E' :: cs => readExponentDigits cs
  | cs => some (none, cs)

/-- A number. A whole part of several digits does not start with a zero. -/
def readNumeral (cs : List Char) : Option (Numeral × List Char) := do
  let (negative, cs) := match cs with
    | '-' :: cs => (true, cs)
    | cs => (false, cs)
  let (whole, cs) ← readSomeDigits cs
  if whole.length > 1 && whole.head? == some 0 then none
  let (fraction, cs) ← readFraction cs
  let (exponent, cs) ← readExponent cs
  some ({ negative, whole, fraction, exponent }, cs)

mutual

/-- A value and the text after it, in fewer nested steps than `fuel`. -/
def readValue : Nat → List Char → Option (Json × List Char)
  | 0, _ => none
  | fuel + 1, cs =>
    match skipSpace cs with
    | '"' :: cs => (readString cs).map fun (s, cs) => (.string s, cs)
    | '[' :: cs =>
      match skipSpace cs with
      | ']' :: cs => some (.array [], cs)
      | cs => (readItems fuel cs).map fun (items, cs) => (.array items, cs)
    | '\x7b' :: cs =>
      match skipSpace cs with
      | '\x7d' :: cs => some (.object [], cs)
      | cs => (readFields fuel cs).map fun (fields, cs) => (.object fields, cs)
    | 'n' :: cs => (expect? ['u', 'l', 'l'] cs).map fun cs => (.null, cs)
    | 't' :: cs => (expect? ['r', 'u', 'e'] cs).map fun cs => (.bool true, cs)
    | 'f' :: cs => (expect? ['a', 'l', 's', 'e'] cs).map fun cs => (.bool false, cs)
    | cs => (readNumeral cs).map fun (n, cs) => (.number n, cs)

/-- The items of an array up to its closing bracket; there is at least one. -/
def readItems : Nat → List Char → Option (List Json × List Char)
  | 0, _ => none
  | fuel + 1, cs => do
    let (item, cs) ← readValue fuel cs
    match skipSpace cs with
    | ']' :: cs => some ([item], cs)
    | ',' :: cs =>
      let (items, cs) ← readItems fuel cs
      some (item :: items, cs)
    | _ => none

/-- The fields of an object up to its closing brace; there is at least one. -/
def readFields : Nat → List Char → Option (List (Option String × Json) × List Char)
  | 0, _ => none
  | fuel + 1, cs => do
    let cs ← expect? ['"'] (skipSpace cs)
    let (key, cs) ← readString cs
    let cs ← expect? [':'] (skipSpace cs)
    let (value, cs) ← readValue fuel cs
    match skipSpace cs with
    | '\x7d' :: cs => some ([(key, value)], cs)
    | ',' :: cs =>
      let (fields, cs) ← readFields fuel cs
      some ((key, value) :: fields, cs)
    | _ => none

end

/-- The value a text denotes. Each nested step reads a character, so the text's
length bounds them. -/
def read? (s : String) : Option Json :=
  let cs := s.toList
  match readValue (cs.length + 1) cs with
  | some (value, rest) => if (skipSpace rest).isEmpty then some value else none
  | none => none

end ShaderGen.Json
