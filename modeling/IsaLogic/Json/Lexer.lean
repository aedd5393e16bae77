import IsaLogic.Json.Number

/-!
# JSON tokens

The lexer walks a text once, character by character. Its state says what it is
inside of; a number or a word ends at the first character that cannot belong to
it, and that character starts the next token.
-/

namespace IsaLogic.Json

/-- A token of JSON text. Scalars other than strings are values already. -/
inductive Token where
  | beginObject
  | endObject
  | beginArray
  | endArray
  | colon
  | comma
  | string (value : String)
  | scalar (value : Json)

/-- What the lexer is inside of. Collected characters stand in reverse order. -/
inductive Mode where
  | between
  | word (collected : List Char)
  | number (collected : List Char)
  | string (collected : List Char)
  /-- After a backslash. -/
  | escape (collected : List Char)
  /-- Inside `\u`, with the digits still to come and the value so far. -/
  | hex (collected : List Char) (left value : Nat)
  /-- After a high surrogate, which needs a second escape. -/
  | pairSlash (collected : List Char) (high : Nat)
  | pairMark (collected : List Char) (high : Nat)
  | pairHex (collected : List Char) (high left value : Nat)

/-- Characters that a number can hold. -/
def isNumberChar (c : Char) : Bool :=
  c.isDigit || c == '-' || c == '+' || c == '.' || c == 'e' || c == 'E'

/-- The value of a hexadecimal digit. -/
def hexValue? (c : Char) : Option Nat :=
  if c.isDigit then some (c.toNat - '0'.toNat)
  else if 'a' ≤ c ∧ c ≤ 'f' then some (c.toNat - 'a'.toNat + 10)
  else if 'A' ≤ c ∧ c ≤ 'F' then some (c.toNat - 'A'.toNat + 10)
  else none

/-- The value of a bare word. -/
def wordValue? (word : List Char) : Option Json :=
  if word = "true".toList then some (bool true)
  else if word = "false".toList then some (bool false)
  else if word = "null".toList then some null
  else none

/-- The character of a one-letter escape. -/
def simpleEscape? (c : Char) : Option Char :=
  match c with
  | '"' => some '"'
  | '\\' => some '\\'
  | '/' => some '/'
  | 'b' => some (Char.ofNat 8)
  | 'f' => some (Char.ofNat 12)
  | 'n' => some '\n'
  | 'r' => some '\r'
  | 't' => some '\t'
  | _ => none

/-- Whether a code unit is the first half of a pair. -/
def isHighSurrogate (n : Nat) : Bool := 0xD800 ≤ n && n ≤ 0xDBFF

/-- Whether a code unit is the second half of a pair. -/
def isLowSurrogate (n : Nat) : Bool := 0xDC00 ≤ n && n ≤ 0xDFFF

/-- Start a token, or stay between tokens, at a character. -/
def start (c : Char) : Option (List Token × Mode) :=
  match c with
  | '\x7b' => some ([.beginObject], .between)
  | '\x7d' => some ([.endObject], .between)
  | '[' => some ([.beginArray], .between)
  | ']' => some ([.endArray], .between)
  | ':' => some ([.colon], .between)
  | ',' => some ([.comma], .between)
  | '"' => some ([], .string [])
  | ' ' | '\n' | '\r' | '\t' => some ([], .between)
  | c =>
    if c.isDigit || c == '-' then some ([], .number [c])
    else if c.isAlpha then some ([], .word [c])
    else none

/-- End the token that ends by itself, if the lexer is inside of one. -/
def finish : Mode → Option (List Token)
  | .between => some []
  | .word collected => (wordValue? collected.reverse).map fun value => [.scalar value]
  | .number collected => (readNumber collected.reverse).map fun value => [.scalar value]
  | _ => none

/-- The end of a `\u` escape. -/
def endHex (collected : List Char) (value : Nat) : Option Mode :=
  if isHighSurrogate value then some (.pairSlash collected value)
  else if isLowSurrogate value then none
  else some (.string (Char.ofNat value :: collected))

/-- The end of the second `\u` escape of a pair. -/
def endPair (collected : List Char) (high value : Nat) : Option Mode :=
  if isLowSurrogate value then
    some (.string (Char.ofNat (0x10000 + (high - 0xD800) * 0x400 + (value - 0xDC00)) :: collected))
  else none

/-- Take one character. -/
def step (mode : Mode) (c : Char) : Option (List Token × Mode) :=
  match mode with
  | .between => start c
  | .word collected =>
    if c.isAlpha then some ([], .word (c :: collected))
    else do
      let ended ← finish (.word collected)
      let (tokens, mode) ← start c
      return (ended ++ tokens, mode)
  | .number collected =>
    if isNumberChar c then some ([], .number (c :: collected))
    else do
      let ended ← finish (.number collected)
      let (tokens, mode) ← start c
      return (ended ++ tokens, mode)
  | .string collected =>
    if c = '"' then some ([.string (String.ofList collected.reverse)], .between)
    else if c = '\\' then some ([], .escape collected)
    else if c.toNat < 0x20 then none
    else some ([], .string (c :: collected))
  | .escape collected =>
    if c = 'u' then some ([], .hex collected 4 0)
    else (simpleEscape? c).map fun escaped => ([], .string (escaped :: collected))
  | .hex collected left value => do
    let digit ← hexValue? c
    if left ≤ 1 then return ([], ← endHex collected (value * 16 + digit))
    return ([], .hex collected (left - 1) (value * 16 + digit))
  | .pairSlash collected high => if c = '\\' then some ([], .pairMark collected high) else none
  | .pairMark collected high => if c = 'u' then some ([], .pairHex collected high 4 0) else none
  | .pairHex collected high left value => do
    let digit ← hexValue? c
    if left ≤ 1 then return ([], ← endPair collected high (value * 16 + digit))
    return ([], .pairHex collected high (left - 1) (value * 16 + digit))

/-- Walk a text; `found` holds the tokens so far in reverse order. -/
def lexFrom (mode : Mode) (found : List Token) : List Char → Option (List Token)
  | [] => (finish mode).map fun ended => (ended.reverse ++ found).reverse
  | c :: rest =>
    match step mode c with
    | none => none
    | some (tokens, mode) => lexFrom mode (tokens.reverse ++ found) rest

/-- The tokens of a text. -/
def tokens? (text : List Char) : Option (List Token) :=
  lexFrom .between [] text

end IsaLogic.Json
