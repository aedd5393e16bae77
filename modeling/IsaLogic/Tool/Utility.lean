import IsaLogic.Digest.Tagged
import IsaLogic.Text.Blank
import IsaLogic.Text.Integer
import IsaLogic.Text.Pattern

/-!
# Utilities of scripts

What `echo`, `printf`, `cat`, `head` and `grep` write, and the status they end
with, as functions of their arguments, their input and the files they can read.
-/

namespace IsaLogic.Utility

open Digest (textBytes)

/-- What a utility leaves behind. -/
structure Result where
  output : Bytes := []
  errors : Bytes := []
  status : Nat := 0

/-- The files that a script can name. -/
abbrev Files := List (String × Bytes)

/-- Bytes as characters, one for each. -/
def byteChars (bytes : Bytes) : List Char := bytes.map fun byte => Char.ofNat byte.toNat

/-- The bytes of characters. -/
def charBytes (chars : List Char) : Bytes := textBytes (String.ofList chars)

/-- Lines with their ends: each but the last has one. -/
def splitLines : Bytes → List Bytes
  | [] => []
  | byte :: rest =>
    if byte = 10 then [byte] :: splitLines rest
    else
      match splitLines rest with
      | [] => [[byte]]
      | line :: lines => (byte :: line) :: lines

/-- A failure with a message. -/
def failure (status : Nat) (message : String) : Result :=
  { errors := textBytes (message ++ "\n"), status }

/-! ## Escapes -/

/-- Continue an octal number by up to `count` digits. -/
def octal : Nat → Nat → List Char → Nat × List Char
  | count + 1, value, c :: rest =>
    if '0' ≤ c ∧ c ≤ '7' then octal count (value * 8 + (c.toNat - '0'.toNat)) rest
    else (value, c :: rest)
  | _, value, rest => (value, rest)

theorem octal_length (count value : Nat) (text : List Char) :
    (octal count value text).2.length ≤ text.length := by
  induction count generalizing value text with
  | zero => simp [octal]
  | succ count ih =>
    cases text with
    | nil => simp [octal]
    | cons c rest =>
      rw [octal]
      split
      · exact Nat.le_succ_of_le (ih _ rest)
      · exact Nat.le_refl _

/-- The number of an octal escape, given its first digit. In a format that digit
counts, in an argument it is a zero. -/
def octalEscape (inFormat : Bool) (c : Char) (rest : List Char) : Nat × List Char :=
  if inFormat then octal 2 (c.toNat - '0'.toNat) rest else octal 3 0 rest

theorem octalEscape_length (inFormat : Bool) (c : Char) (rest : List Char) :
    (octalEscape inFormat c rest).2.length < rest.length + 1 + 1 := by
  rw [octalEscape]
  split
  · exact Nat.lt_succ_of_le (Nat.le_succ_of_le (octal_length _ _ rest))
  · exact Nat.lt_succ_of_le (Nat.le_succ_of_le (octal_length _ _ rest))

/-- The character of an escape with one letter. -/
def letterEscape? : Char → Option Nat
  | '\\' => some 92
  | 'a' => some 7
  | 'b' => some 8
  | 'f' => some 12
  | 'n' => some 10
  | 'r' => some 13
  | 't' => some 9
  | 'v' => some 11
  | _ => none

/-- Text with its escapes replaced, and whether it was cut off by `\c`. Octal
escapes of an argument start with a zero, those of a format need none. -/
def unescape (inFormat : Bool) : List Char → Bytes × Bool
  | [] => ([], false)
  | '\\' :: c :: rest =>
    match letterEscape? c with
    | some code =>
      let (bytes, cut) := unescape inFormat rest
      (UInt8.ofNat code :: bytes, cut)
    | none =>
      if c = 'c' ∧ inFormat = false then ([], true)
      else if '0' ≤ c ∧ c ≤ '7' ∧ (inFormat = true ∨ c = '0') then
        let number := octalEscape inFormat c rest
        let (bytes, cut) := unescape inFormat number.2
        (UInt8.ofNat number.1 :: bytes, cut)
      else
        let (bytes, cut) := unescape inFormat rest
        (92 :: charBytes [c] ++ bytes, cut)
  | c :: rest =>
    let (bytes, cut) := unescape inFormat rest
    (charBytes [c] ++ bytes, cut)
termination_by text => text.length
decreasing_by
  · exact Nat.lt_succ_of_lt (Nat.lt_succ_self _)
  · exact octalEscape_length inFormat c rest
  · exact Nat.lt_succ_of_lt (Nat.lt_succ_self _)
  · exact Nat.lt_succ_self _

/-! ## Writing -/

/-- Write the arguments with blanks between them, and a line end unless told not to. -/
def echo (arguments : List String) : Result :=
  let (ended, arguments) := match arguments with
    | "-n" :: rest => (false, rest)
    | arguments => (true, arguments)
  let (bytes, cut) := unescape false (String.intercalate " " arguments).toList
  { output := if ended && !cut then bytes ++ [10] else bytes }

/-- A piece of a format. -/
inductive Piece where
  | literal (bytes : Bytes)
  | directive (kind : Char)

/-- Cut a format at its directives. -/
def pieces (collected : List Char) : List Char → List Piece
  | '%' :: '%' :: rest => pieces (collected ++ ['%']) rest
  | '%' :: kind :: rest =>
    .literal (unescape true collected).1 :: .directive kind :: pieces [] rest
  | '\\' :: c :: rest => pieces (collected ++ ['\\', c]) rest
  | c :: rest => pieces (collected ++ [c]) rest
  | [] => [.literal (unescape true collected).1]

/-- What a directive writes for an argument. -/
def directive (kind : Char) (argument : String) : Bytes :=
  match kind with
  | 'd' | 'i' | 'u' =>
    match Text.readInt 9223372036854775807 argument.toList with
    | .ok number => textBytes (toString number)
    | .error _ => textBytes "0"
  | 'c' => charBytes (argument.toList.take 1)
  | 'b' => (unescape false argument.toList).1
  | _ => textBytes argument

/-- Write a format once; the arguments that are left come back. -/
def formatOnce : List Piece → List String → Bytes × List String
  | [], arguments => ([], arguments)
  | .literal bytes :: rest, arguments =>
    let (more, left) := formatOnce rest arguments
    (bytes ++ more, left)
  | .directive kind :: rest, arguments =>
    let (more, left) := formatOnce rest (arguments.drop 1)
    (directive kind ((arguments.head?).getD "") ++ more, left)

/-- Write a format, and again as long as it takes arguments and some are left. -/
def formatAll (format : List Piece) (arguments : List String) : Bytes :=
  let once := formatOnce format arguments
  if _progress : once.2.length < arguments.length then
    if once.2.isEmpty then once.1 else once.1 ++ formatAll format once.2
  else once.1
termination_by arguments.length

/-- Write arguments by a format. -/
def printf : List String → Result
  | [] => failure 2 "sh: 1: printf: usage: printf format [arg ...]"
  | format :: arguments => { output := formatAll (pieces [] format.toList) arguments }

/-! ## Reading -/

/-- The content of a file, or the input for a lone dash. -/
def content? (files : Files) (input : Bytes) (name : String) : Option Bytes :=
  if name = "-" then some input
  else if name = "/dev/null" then some []
  else (files.find? fun file => file.1 == name).map Prod.snd

/-- Do something for each file that can be read, and complain about the others. -/
def forFiles (complaint : String → String) (files : Files) (input : Bytes)
    (names : List String) (write : String → Bytes → Bytes) : Result :=
  (if names.isEmpty then ["-"] else names).foldl
    (fun result name =>
      match content? files input name with
      | some bytes => { result with output := result.output ++ write name bytes }
      | none =>
        { result with
          errors := result.errors ++ textBytes (complaint name ++ "\n"), status := 1 }) {}

/-- Write files one after the other. -/
def cat (files : Files) (input : Bytes) (names : List String) : Result :=
  forFiles (fun name => "cat: " ++ name ++ ": No such file or directory") files input names
    fun _ bytes => bytes

/-- How much of a file is written. -/
inductive Amount where
  | bytes (count : Nat)
  | lines (count : Nat)

/-- The first part of a file. -/
def Amount.take : Amount → Bytes → Bytes
  | bytes count, content => content.take count
  | lines count, content => ((splitLines content).take count).flatten

/-- Read the options of `head`; the names of files follow them. -/
def headOptions (amount : Amount) : List String → Option (Amount × List String)
  | [] => some (amount, [])
  | argument :: rest =>
    match argument.toList with
    | ['-', 'c'] =>
      match rest with
      | count :: rest => do headOptions (.bytes (← count.toNat?)) rest
      | [] => none
    | ['-', 'n'] =>
      match rest with
      | count :: rest => do headOptions (.lines (← count.toNat?)) rest
      | [] => none
    | '-' :: 'c' :: count => do headOptions (.bytes (← (String.ofList count).toNat?)) rest
    | '-' :: 'n' :: count => do headOptions (.lines (← (String.ofList count).toNat?)) rest
    | '-' :: c :: count => do
      headOptions (.lines (← (String.ofList (c :: count)).toNat?)) rest
    | _ => some (amount, argument :: rest)

/-- Write the first part of files. Several files have headings. -/
def head (files : Files) (input : Bytes) (arguments : List String) : Result :=
  match headOptions (.lines 10) arguments with
  | none => failure 1 "head: invalid option"
  | some (amount, names) =>
    let heading := fun name =>
      if names.length ≤ 1 then []
      else
        textBytes ((if names.head? = some name then "" else "\n") ++ "==> " ++ name ++ " <==\n")
    forFiles
      (fun name => "head: cannot open '" ++ name ++ "' for reading: No such file or directory")
      files input names fun name bytes => heading name ++ amount.take bytes

/-- The options of a search. -/
structure Search where
  quiet : Bool := false
  inverted : Bool := false
  counting : Bool := false
  numbered : Bool := false
  literal : Bool := false
  wholeLine : Bool := false
  ignoreCase : Bool := false

namespace Search

/-- Set an option by its letter. -/
def set? (search : Search) : Char → Option Search
  | 'q' => some { search with quiet := true }
  | 'v' => some { search with inverted := true }
  | 'c' => some { search with counting := true }
  | 'n' => some { search with numbered := true }
  | 'F' => some { search with literal := true }
  | 'x' => some { search with wholeLine := true }
  | 'i' => some { search with ignoreCase := true }
  | 'E' | 's' => some search
  | _ => none

/-- The pattern of a search. -/
def pattern? (search : Search) (text : List Char) : Option Text.Pattern := do
  let text := if search.ignoreCase then text.map Char.toLower else text
  let pattern ← if search.literal then some (Text.Pattern.literal text) else Text.Pattern.parse? text
  if search.wholeLine then return { pattern with anchoredStart := true, anchoredEnd := true }
  else return pattern

/-- Whether a line is selected. -/
def selects (search : Search) (pattern : Text.Pattern) (line : Bytes) : Bool :=
  let chars := byteChars (line.filter (· != 10))
  let chars := if search.ignoreCase then chars.map Char.toLower else chars
  pattern.matchesLine chars != search.inverted

/-- What is written of the selected lines of a file. -/
def report (search : Search) (label : String) (selected : List (Bytes × Nat)) : Bytes :=
  if search.quiet then []
  else if search.counting then textBytes (label ++ toString selected.length ++ "\n")
  else
    selected.flatMap fun (line, place) =>
      let number := if search.numbered then toString (place + 1) ++ ":" else ""
      let ending := if line.getLast? = some 10 then [] else [10]
      textBytes (label ++ number) ++ line ++ ending

end Search

/-- Read the options of `grep`; the pattern and the names of files follow them. -/
def grepOptions (search : Search) : List String → Option (Search × List String)
  | [] => some (search, [])
  | argument :: rest =>
    match argument.toList with
    | '-' :: 'e' :: [] => some (search, rest)
    | '-' :: '-' :: [] => some (search, rest)
    | '-' :: c :: letters => do grepOptions (← (c :: letters).foldlM Search.set? search) rest
    | _ => some (search, argument :: rest)

/-- Search the lines of files. The status is zero if a line was selected. -/
def grep (files : Files) (input : Bytes) (arguments : List String) : Result :=
  match grepOptions {} arguments with
  | none => failure 2 "grep: invalid option"
  | some (_, []) => failure 2 "Usage: grep [OPTION]... PATTERNS [FILE]..."
  | some (search, text :: names) =>
    match search.pattern? (byteChars (textBytes text)) with
    | none => failure 2 "grep: Invalid regular expression"
    | some pattern =>
      let selected := fun bytes =>
        (splitLines bytes).zipIdx.filter fun line => search.selects pattern line.1
      let found := (if names.isEmpty then ["-"] else names).any fun name =>
        ((content? files input name).map fun bytes => !(selected bytes).isEmpty).getD false
      let label := fun name => if names.length ≤ 1 then "" else name ++ ":"
      let result := forFiles (fun name => "grep: " ++ name ++ ": No such file or directory")
        files input names fun name bytes => search.report (label name) (selected bytes)
      let status :=
        if result.status ≠ 0 ∧ !(search.quiet && found) then 2 else if found then 0 else 1
      { result with status }

end IsaLogic.Utility
