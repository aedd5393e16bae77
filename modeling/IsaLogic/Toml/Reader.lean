import IsaLogic.Json.Lexer
import IsaLogic.Toml.Basic

/-!
# Reading TOML

A reader of TOML 1.0. Every step takes the rest of the text and gives back what it
read and the rest after it; none if the text is not TOML. Values nest, so their
reader takes a fuel argument, which the length of the text bounds.
-/

namespace IsaLogic.Toml

/-- A step of the reader. -/
abbrev Step (α : Type) := List Char → Option (α × List Char)

/-- Skip blanks and tabs. -/
def skipBlanks (text : List Char) : List Char :=
  text.dropWhile fun c => c == ' ' || c == '\t'

/-- Characters that never stand for themselves. -/
def isControl (c : Char) : Bool :=
  (c.toNat < 0x20 && c != '\t') || c.toNat == 0x7F

/-- Skip a comment, if there is one; it has no control characters. -/
def skipComment : Step Unit
  | '#' :: text =>
    let comment := text.takeWhile fun c => c != '\n' && c != '\r'
    if comment.any isControl then none else some ((), text.drop comment.length)
  | text => some ((), text)

/-- Skip the end of a line. -/
def lineEnd? : List Char → Option (List Char)
  | '\n' :: rest => some rest
  | '\r' :: '\n' :: rest => some rest
  | _ => none

/-! ## Strings -/

/-- The value of some hexadecimal digits. -/
def hexNumber? : Nat → Nat → Step Nat
  | 0, value, rest => some (value, rest)
  | count + 1, value, c :: rest => do
    hexNumber? count (value * 16 + (← Json.hexValue? c)) rest
  | _ + 1, _, [] => none

/-- The character of an escape, after its backslash. -/
def escape? : Step Char
  | 'b' :: rest => some (Char.ofNat 8, rest)
  | 't' :: rest => some ('\t', rest)
  | 'n' :: rest => some ('\n', rest)
  | 'f' :: rest => some (Char.ofNat 12, rest)
  | 'r' :: rest => some ('\r', rest)
  | '"' :: rest => some ('"', rest)
  | '\\' :: rest => some ('\\', rest)
  | 'u' :: rest => scalar? 4 rest
  | 'U' :: rest => scalar? 8 rest
  | _ => none
where
  /-- The character of a number in hexadecimal digits. -/
  scalar? (digits : Nat) : Step Char := fun text => do
    let (number, rest) ← hexNumber? digits 0 text
    if number < 0xD800 ∨ (0xDFFF < number ∧ number < 0x110000) then
      return (Char.ofNat number, rest)
    else none

/-- The rest of a string on one line, with the characters collected in reverse. -/
def basicString : Nat → List Char → Step String
  | 0, _, _ => none
  | fuel + 1, collected, text =>
    match text with
    | '"' :: rest => some (String.ofList collected.reverse, rest)
    | '\\' :: rest => do
      let (c, rest) ← escape? rest
      basicString fuel (c :: collected) rest
    | c :: rest => if isControl c then none else basicString fuel (c :: collected) rest
    | [] => none

/-- The rest of a literal string on one line. -/
def literalString : Step String := fun text =>
  let content := text.takeWhile fun c => c != '\''
  match text.drop content.length with
  | '\'' :: rest => if content.any isControl then none else some (String.ofList content, rest)
  | _ => none

/-- A text without the line end it may start with. -/
def dropLineEnd (text : List Char) : List Char := (lineEnd? text).getD text

/-- Skip blanks and line ends after a backslash at the end of a line. -/
def skipFolded (text : List Char) : Option (List Char) := do
  let rest ← lineEnd? (skipBlanks text)
  return rest.dropWhile fun c => c == ' ' || c == '\t' || c == '\n' || c == '\r'

/-- The rest of a string on several lines. Up to two quotes stand for themselves,
also right before the closing ones. -/
def longString (delimiter : Char) (escapes : Bool) : Nat → List Char → Step String
  | 0, _, _ => none
  | fuel + 1, collected, text =>
    match text with
    | [] => none
    | c :: rest =>
      if c = delimiter then
        let run := (text.takeWhile (· == delimiter)).length
        if run < 3 then
          longString delimiter escapes fuel
            (List.replicate run delimiter ++ collected) (text.drop run)
        else if run ≤ 5 then
          some (String.ofList (List.replicate (run - 3) delimiter ++ collected).reverse,
            text.drop run)
        else none
      else if c = '\\' ∧ escapes = true then
        match skipFolded rest with
        | some rest => longString delimiter escapes fuel collected rest
        | none => do
          let (c, rest) ← escape? rest
          longString delimiter escapes fuel (c :: collected) rest
      else
        match lineEnd? text with
        | some rest => longString delimiter escapes fuel ('\n' :: collected) rest
        | none => if isControl c then none else longString delimiter escapes fuel (c :: collected) rest

/-- A string on one line. -/
def shortString? : Step String
  | '"' :: rest => basicString (rest.length + 1) [] rest
  | '\'' :: rest => literalString rest
  | _ => none

/-- A string. -/
def string? : Step String
  | '"' :: '"' :: '"' :: rest =>
    longString '"' true (rest.length + 1) [] (dropLineEnd rest)
  | '\'' :: '\'' :: '\'' :: rest =>
    longString '\'' false (rest.length + 1) [] (dropLineEnd rest)
  | text => shortString? text

/-! ## Keys -/

/-- Characters of a bare key. -/
def isBareKeyChar (c : Char) : Bool := c.isAlphanum || c == '_' || c == '-'

/-- One part of a key. -/
def simpleKey? : Step String := fun text =>
  let bare := text.takeWhile isBareKeyChar
  if bare.isEmpty then shortString? text
  else some (String.ofList bare, text.drop bare.length)

/-- A dotted key: its parts, with blanks around them. -/
def key? : Nat → Step (List String)
  | 0, _ => none
  | fuel + 1, text => do
    let (part, rest) ← simpleKey? (skipBlanks text)
    match skipBlanks rest with
    | '.' :: rest => do
      let (parts, rest) ← key? fuel rest
      return (part :: parts, rest)
    | rest => return ([part], rest)

/-! ## Scalars -/

/-- The characters of a scalar that is no string. -/
def isScalarChar (c : Char) : Bool :=
  c.isAlphanum || c == '+' || c == '-' || c == '.' || c == '_' || c == ':'

/-- Digits with single low lines between them. -/
def digits? (isDigit : Char → Bool) : List Char → Option (List Char)
  | [] => none
  | [c] => if isDigit c then some [c] else none
  | c :: '_' :: rest => if isDigit c then (digits? isDigit rest).map (c :: ·) else none
  | c :: rest => if isDigit c then (digits? isDigit rest).map (c :: ·) else none

/-- Digits without a leading zero. -/
def decimal? (text : List Char) : Option (List Char) := do
  match ← digits? Char.isDigit text with
  | '0' :: _ :: _ => none
  | digits => some digits

/-- The sign of a number and the rest. -/
def signed : List Char → Bool × List Char
  | '+' :: rest => (false, rest)
  | '-' :: rest => (true, rest)
  | rest => (false, rest)

/-- The value of digits in a base. -/
def valueOf (base : Nat) (digits : List Char) : Nat :=
  digits.foldl (fun value c => value * base + ((Json.hexValue? c).getD 0)) 0

/-- An integer, which must fit 64 bits. -/
def integer? (text : List Char) : Option Int := do
  let value ← match text with
    | '0' :: 'x' :: rest =>
      (digits? (fun c => (Json.hexValue? c).isSome) rest).map fun d => (valueOf 16 d : Int)
    | '0' :: 'o' :: rest =>
      (digits? (fun c => '0' ≤ c && c ≤ '7') rest).map fun d => (valueOf 8 d : Int)
    | '0' :: 'b' :: rest =>
      (digits? (fun c => c == '0' || c == '1') rest).map fun d => (valueOf 2 d : Int)
    | text =>
      let (negative, rest) := signed text
      (decimal? rest).map fun d => if negative then -(valueOf 10 d : Int) else (valueOf 10 d : Int)
  if -9223372036854775808 ≤ value ∧ value ≤ 9223372036854775807 then some value else none

/-- Whether a text is an exponent, after its mark. -/
def isExponent (text : List Char) : Bool := (digits? Char.isDigit (signed text).2).isSome

/-- Whether a text is a float. -/
def isFloat (text : List Char) : Bool :=
  let rest := (signed text).2
  if rest = "inf".toList ∨ rest = "nan".toList then true
  else
    let isMark := fun c => c == 'e' || c == 'E'
    let mantissa := rest.takeWhile fun c => !isMark c
    let exponent := rest.drop mantissa.length
    let whole := mantissa.takeWhile (· != '.')
    let fraction := mantissa.drop whole.length
    (decimal? whole).isSome && !(exponent.isEmpty && fraction.isEmpty) &&
      (fraction.isEmpty || (digits? Char.isDigit (fraction.drop 1)).isSome) &&
      (exponent.isEmpty || isExponent (exponent.drop 1))

/-- Some digits as a number within bounds. -/
def between? (count low high : Nat) (text : List Char) : Option (Nat × List Char) :=
  let digits := text.take count
  if digits.length = count ∧ digits.all Char.isDigit ∧ low ≤ valueOf 10 digits ∧
      valueOf 10 digits ≤ high then
    some (valueOf 10 digits, text.drop count)
  else none

/-- Skip a character that must be there. -/
def expect? (c : Char) : List Char → Option (List Char)
  | d :: rest => if c = d then some rest else none
  | [] => none

/-- The number of days of a month. -/
def daysOf (year month : Nat) : Nat :=
  if month = 2 then
    if year % 4 = 0 ∧ (year % 100 ≠ 0 ∨ year % 400 = 0) then 29 else 28
  else if month = 4 ∨ month = 6 ∨ month = 9 ∨ month = 11 then 30
  else 31

/-- Skip a date. -/
def skipDate? (text : List Char) : Option (List Char) := do
  let (year, rest) ← between? 4 0 9999 text
  let (month, rest) ← between? 2 1 12 (← expect? '-' rest)
  let (_, rest) ← between? 2 1 (daysOf year month) (← expect? '-' rest)
  return rest

/-- Skip a time of day. -/
def skipTime? (text : List Char) : Option (List Char) := do
  let (_, rest) ← between? 2 0 23 text
  let (_, rest) ← between? 2 0 59 (← expect? ':' rest)
  let (_, rest) ← between? 2 0 60 (← expect? ':' rest)
  match rest with
  | '.' :: rest =>
    let digits := rest.takeWhile Char.isDigit
    if digits.isEmpty then none else some (rest.drop digits.length)
  | rest => some rest

/-- Skip the offset of a time, if there is one. -/
def skipOffset? : List Char → Option (List Char)
  | 'Z' :: rest | 'z' :: rest => some rest
  | '+' :: rest | '-' :: rest => do
    let (_, rest) ← between? 2 0 23 rest
    let (_, rest) ← between? 2 0 59 (← expect? ':' rest)
    return rest
  | rest => some rest

/-- Whether a text is a date, a time or both. A blank may divide the two. -/
def isDatetime (text : List Char) : Bool :=
  match skipDate? text with
  | some [] => true
  | some (divider :: rest) =>
    (divider == 'T' || divider == 't' || divider == ' ') &&
      ((skipTime? rest).bind skipOffset?) == some []
  | none => skipTime? text == some []

/-- The text of a scalar: a date may go on after a blank. -/
def scalarText (text : List Char) : List Char :=
  let first := text.takeWhile isScalarChar
  match text.drop first.length with
  | ' ' :: c :: rest =>
    if c.isDigit ∧ skipDate? first = some [] then
      first ++ ' ' :: (c :: rest).takeWhile isScalarChar
    else first
  | _ => first

/-- A scalar that is no string. -/
def scalar? : Step Toml := fun text =>
  let spelling := scalarText text
  let rest := text.drop spelling.length
  if spelling = "true".toList then some (.bool true, rest)
  else if spelling = "false".toList then some (.bool false, rest)
  else
    match integer? spelling with
    | some value => some (.int value, rest)
    | none =>
      if isFloat spelling then some (.float (String.ofList spelling), rest)
      else if isDatetime spelling then some (.datetime (String.ofList spelling), rest)
      else none

/-! ## Values -/

/-- Skip blanks, comments and line ends. -/
def skipLines : Nat → List Char → Option (List Char)
  | 0, _ => none
  | fuel + 1, text => do
    let (_, rest) ← skipComment (skipBlanks text)
    match lineEnd? rest with
    | some rest => skipLines fuel rest
    | none => return rest

/-- Add the value of a dotted key to a table. -/
def assignKey (path : List String) (value : Toml) (entries : Entries) : Option Entries := do
  let last ← path.getLast?
  entries.assign value last true path.dropLast

mutual

/-- A value. -/
def value? : Nat → Step Toml
  | 0, _ => none
  | fuel + 1, text =>
    match text with
    | '[' :: rest => do
      let (items, rest) ← items? fuel rest
      return (.arr items, rest)
    | '\x7b' :: rest =>
      match skipBlanks rest with
      | '\x7d' :: rest => some (.table [], rest)
      | rest => do
        let (entries, rest) ← inlineEntries? fuel [] rest
        return (.table (Node.finishEntries entries), rest)
    | '"' :: _ | '\'' :: _ => do
      let (text, rest) ← string? text
      return (.str text, rest)
    | text => scalar? text

/-- The items of an array, after its bracket or a comma. -/
def items? : Nat → Step (List Toml)
  | 0, _ => none
  | fuel + 1, text => do
    match ← skipLines (text.length + 1) text with
    | ']' :: rest => return ([], rest)
    | text =>
      let (item, rest) ← value? fuel text
      match ← skipLines (rest.length + 1) rest with
      | ',' :: rest =>
        let (items, rest) ← items? fuel rest
        return (item :: items, rest)
      | ']' :: rest => return ([item], rest)
      | _ => none

/-- The entries of a table on one line, after its brace or a comma. -/
def inlineEntries? : Nat → Entries → Step Entries
  | 0, _, _ => none
  | fuel + 1, entries, text => do
    let (path, rest) ← key? (text.length + 1) text
    let (value, rest) ← value? fuel (skipBlanks (← expect? '=' rest))
    let entries ← assignKey path value entries
    match skipBlanks rest with
    | ',' :: rest => inlineEntries? fuel entries rest
    | '\x7d' :: rest => return (entries, rest)
    | _ => none

end

/-! ## Documents -/

/-- A document so far: its entries, and the path of the last header. -/
structure Draft where
  entries : Entries := []
  path : List String := []

/-- Read a header, after its first bracket. -/
def header? (draft : Draft) (text : List Char) : Option (Draft × List Char) := do
  match text with
  | '[' :: text =>
    let (path, rest) ← key? (text.length + 1) text
    let rest ← expect? ']' (← expect? ']' rest)
    let entries ← draft.entries.descend (Entries.appendTable (← path.getLast?)) path.dropLast
    return ({ entries, path }, rest)
  | text =>
    let (path, rest) ← key? (text.length + 1) text
    let rest ← expect? ']' rest
    let entries ← draft.entries.descend (Entries.defineTable (← path.getLast?)) path.dropLast
    return ({ entries, path }, rest)

/-- Read a key and its value. -/
def keyValue? (draft : Draft) (text : List Char) : Option (Draft × List Char) := do
  let (path, rest) ← key? (text.length + 1) text
  let rest := skipBlanks (← expect? '=' rest)
  let (value, rest) ← value? (rest.length + 1) rest
  let entries ← draft.entries.descend (assignKey path value) draft.path
  return ({ draft with entries }, rest)

/-- Read the lines of a document. -/
def readLines (draft : Draft) : Nat → List Char → Option Entries
  | 0, _ => none
  | fuel + 1, text => do
    let (draft, rest) ← match skipBlanks text with
      | [] => some (draft, [])
      | '#' :: rest => some (draft, '#' :: rest)
      | '\n' :: rest => some (draft, '\n' :: rest)
      | '\r' :: rest => some (draft, '\r' :: rest)
      | '[' :: rest => header? draft rest
      | text => keyValue? draft text
    let (_, rest) ← skipComment (skipBlanks rest)
    match rest with
    | [] => return draft.entries
    | rest => readLines draft fuel (← lineEnd? rest)

/-- Read a document. A byte order mark at its start is ignored. -/
def parse? (text : String) : Option Toml := do
  let text := match text.toList with
    | '\uFEFF' :: rest => rest
    | text => text
  let entries ← readLines {} (text.length + 1) text
  return .table (Node.finishEntries entries)

end IsaLogic.Toml
