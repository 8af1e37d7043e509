import ShaderGen.Listing.Basic
import ShaderGen.Text.Blank
import ShaderGen.Text.Digits

/-!
Reading listings. Lines are trimmed; blank ones are skipped, and those that start
with a semicolon are comments. Every other line is `[%id =] Opname operand*`. The
first line that is not is reported, and within it a string without end comes
first, then a result without its equals sign, then a malformed result, then a
missing opcode, then a result the opcode does not have, then the first malformed
operand.
-/

namespace ShaderGen.Listing

/-- What is wrong with a line, which is counted from one. -/
inductive Error where
  | missingOpcode (line : Nat)
  | badId (line : Nat) (token : String)
  | unterminatedString (line : Nat)
  | unexpectedResult (line : Nat) (opcode : String)
deriving DecidableEq, Repr

/-- The wording of an error. -/
def Error.message : Error → String
  | missingOpcode line => "line " ++ toString line ++ ": missing opcode"
  | badId line token => "line " ++ toString line ++ ": malformed id `" ++ token ++ "`"
  | unterminatedString line => "line " ++ toString line ++ ": unterminated string"
  | unexpectedResult line opcode =>
    "line " ++ toString line ++ ": `" ++ opcode ++ "` does not produce a result"

/-- The opcodes that bind no result. -/
def resultless : List String :=
  ["OpCapability", "OpMemoryModel", "OpEntryPoint", "OpExecutionMode", "OpDecorate",
    "OpMemberDecorate", "OpStore", "OpSelectionMerge", "OpBranchConditional", "OpBranch",
    "OpReturn", "OpFunctionEnd"]

/-- A piece of a line: a string, or characters up to the next blank. -/
inductive Token where
  | quoted (s : List Char)
  | plain (s : List Char)
deriving DecidableEq, Repr

/-- Where the tokenizer stands: between tokens, or in one, with the characters
read so far, last first. -/
inductive Progress where
  | between
  | inPlain (done : List Char)
  | inQuotes (done : List Char)

/-- The tokens of a line after those already read, last first, or nothing if a
string does not end. A quote starts a string only at the start of a token. -/
def tokensFrom (done : List Token) : Progress → List Char → Option (List Token)
  | .between, [] => some done.reverse
  | .inPlain word, [] => some (.plain word.reverse :: done).reverse
  | .inQuotes _, [] => none
  | .between, c :: cs =>
    if Text.isBlank c then tokensFrom done .between cs
    else if c = '"' then tokensFrom done (.inQuotes []) cs
    else tokensFrom done (.inPlain [c]) cs
  | .inPlain word, c :: cs =>
    if Text.isBlank c then tokensFrom (.plain word.reverse :: done) .between cs
    else tokensFrom done (.inPlain (c :: word)) cs
  | .inQuotes text, c :: cs =>
    if c = '"' then tokensFrom (.quoted text.reverse :: done) .between cs
    else tokensFrom done (.inQuotes (c :: text)) cs

/-- The tokens of a line. -/
def tokens? (cs : List Char) : Option (List Token) := tokensFrom [] .between cs

/-- Whether a token is an id or was meant to be one. -/
def isId : List Char → Bool
  | '%' :: _ => true
  | _ => false

/-- The number of an id: a percent sign and an unsigned 32-bit number. -/
def idNumber? : List Char → Option Nat
  | '%' :: cs => Text.unsigned? UInt32.size cs
  | _ => none

/-- The number of an id, or an error. -/
def readId (line : Nat) (token : List Char) : Except Error Nat :=
  match idNumber? token with
  | some n => .ok n
  | none => .error (.badId line (String.ofList token))

/-- A token as an operand. -/
def readWord (line : Nat) : Token → Except Error Word
  | .quoted s => .ok (.quoted (String.ofList s))
  | .plain s => if isId s then Word.id <$> readId line s else .ok (.plain (String.ofList s))

/-- The result of a line, if its first token is an id, and the tokens after its
equals sign. -/
def readResult (line : Nat) : List Token → Except Error (Option Nat × List Token)
  | .plain s :: tokens =>
    if isId s then
      match tokens with
      | .plain ['='] :: tokens => return (some (← readId line s), tokens)
      | _ => .error (.missingOpcode line)
    else .ok (none, .plain s :: tokens)
  | tokens => .ok (none, tokens)

/-- The opcode of a line and the tokens after it. -/
def readOpcode (line : Nat) : List Token → Except Error (String × List Token)
  | .plain ('O' :: 'p' :: s) :: tokens => .ok (String.ofList ('O' :: 'p' :: s), tokens)
  | _ => .error (.missingOpcode line)

/-- One instruction, from a trimmed line. -/
def readLine (line : Nat) (cs : List Char) : Except Error Line := do
  match tokens? cs with
  | none => .error (.unterminatedString line)
  | some tokens =>
    let (result, tokens) ← readResult line tokens
    let (opcode, tokens) ← readOpcode line tokens
    if result.isSome && resultless.contains opcode then
      .error (.unexpectedResult line opcode)
    else return { result, opcode, operands := ← tokens.mapM (readWord line) }

/-- What a line adds to a listing. -/
inductive Item where
  | comment (text : String)
  | line (line : Line)
deriving DecidableEq, Repr

/-- What the line of the given number adds, if it is not blank. -/
def readItem (line : Nat) (cs : List Char) : Except Error (Option Item) :=
  match Text.trim cs with
  | [] => .ok none
  | ';' :: comment => .ok (some (.comment (String.ofList comment)))
  | cs => (some ∘ Item.line) <$> readLine line cs

/-- The items of lines numbered from `line` on. -/
def readItems (line : Nat) : List (List Char) → Except Error (List Item)
  | [] => .ok []
  | cs :: rest => do
    let item ← readItem line cs
    let items ← readItems (line + 1) rest
    return item.toList ++ items

/-- The pieces of a text between line feeds, after the pieces already read, last
first, and with the start of the current piece, last character first. -/
def splitLines (done : List (List Char)) (current : List Char) : List Char → List (List Char)
  | [] => (current.reverse :: done).reverse
  | c :: cs =>
    if c = '\n' then splitLines (current.reverse :: done) [] cs
    else splitLines done (c :: current) cs

/-- The listing made of items. -/
def ofItems (items : List Item) : Listing where
  header := items.filterMap fun
    | .comment text => some text
    | .line _ => none
  lines := items.filterMap fun
    | .comment _ => none
    | .line line => some line

/-- Reads a text. -/
def read (text : String) : Except Error Listing :=
  ofItems <$> readItems 1 (splitLines [] [] text.toList)

/-- The text before the first colon and the one after it. -/
def splitColon (cs : List Char) : Option (List Char × List Char) :=
  match cs.span (· != ':') with
  | (key, ':' :: value) => some (key, value)
  | _ => none

/-- The value of the first comment of the form `key: value` with the given key. -/
def headerValue? (l : Listing) (key : String) : Option String :=
  l.header.findSome? fun comment => do
    let (k, value) ← splitColon (Text.trim comment.toList)
    if Text.trim k = key.toList then some (String.ofList (Text.trim value)) else none

end ShaderGen.Listing
