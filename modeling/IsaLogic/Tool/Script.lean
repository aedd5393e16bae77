/-!
# Shell scripts

The part of the shell language in which tools are written: simple commands with
words, quotes and redirections, joined into pipelines and lists. Groups, loops,
assignments and substitutions are not part of it, and a script that has them is
refused.

The lexer takes one character at a time. Its state says what it is inside of.
-/

namespace IsaLogic.Script

/-- A piece of a word. -/
inductive Part where
  | char (c : Char)
  /-- The exit status of the last command. -/
  | status
  /-- The number of the shell process. -/
  | process
deriving DecidableEq

/-- A word. One without quotes that expands to nothing is dropped. -/
structure Word where
  parts : List Part := []
  quoted : Bool := false
deriving DecidableEq

/-- What a redirection does with its target. -/
inductive Redirection where
  | read
  | write
  | append
  /-- The target is the number of a stream. -/
  | duplicate
deriving DecidableEq

/-- When a pipeline runs, by the outcome of the one before it. -/
inductive Link where
  | always
  | onSuccess
  | onFailure
deriving DecidableEq

/-- A token of a script. -/
inductive Token where
  | word (word : Word)
  | redirect (stream : Nat) (redirection : Redirection)
  | link (link : Link)
  | newline
  | pipe

/-- What the lexer is inside of. -/
inductive Mode where
  | bare
  /-- After a backslash, in double quotes or not. -/
  | escape (inQuotes : Bool)
  | single
  | double
  /-- After a dollar sign. -/
  | dollar (inQuotes : Bool)
  /-- Inside the name of a variable. No variable is ever set. -/
  | name (inQuotes : Bool)
  | comment
  | ampersand
  | bar
  /-- After the sign of a redirection of a stream. -/
  | redirect (stream : Nat) (redirection : Redirection)

/-- The state of the lexer. -/
structure Lexer where
  /-- The tokens so far, the last first. -/
  tokens : List Token := []
  word : Option Word := none
  mode : Mode := .bare

namespace Lexer

/-- Add a piece to the current word. -/
def add (lexer : Lexer) (part : Part) : Lexer :=
  let word := lexer.word.getD {}
  { lexer with word := some { word with parts := word.parts ++ [part] } }

/-- Mark the current word as quoted. -/
def quote (lexer : Lexer) : Lexer :=
  { lexer with word := some { lexer.word.getD {} with quoted := true } }

/-- End the current word. -/
def endWord (lexer : Lexer) : Lexer :=
  match lexer.word with
  | none => lexer
  | some word => { lexer with tokens := .word word :: lexer.tokens, word := none }

/-- End the current word and add a token. -/
def token (lexer : Lexer) (token : Token) : Lexer :=
  let ended := lexer.endWord
  { ended with tokens := token :: ended.tokens, mode := .bare }

/-- The number a word is, if it has digits only. -/
def streamNumber? (word : Word) : Option Nat :=
  let digits := word.parts.mapM fun
    | .char c => if c.isDigit then some c else none
    | _ => none
  match word.quoted, digits with
  | false, some (c :: rest) => (String.ofList (c :: rest)).toNat?
  | _, _ => none

/-- Start a redirection. A number right before it says which stream is meant. -/
def redirection (lexer : Lexer) (stream : Nat) (redirection : Redirection) : Lexer :=
  match lexer.word.bind streamNumber? with
  | some number => { lexer with word := none, mode := .redirect number redirection }
  | none => { lexer.endWord with mode := .redirect stream redirection }

/-- Take a character outside of quotes. -/
def bare (lexer : Lexer) (c : Char) : Option Lexer :=
  let lexer := { lexer with mode := .bare }
  if c = ' ' ∨ c = '\t' then some lexer.endWord
  else if c = '\n' then some (lexer.token .newline)
  else if c = ';' then some (lexer.token (.link .always))
  else if c = '&' then some { lexer.endWord with mode := .ampersand }
  else if c = '|' then some { lexer.endWord with mode := .bar }
  else if c = '>' then some (lexer.redirection 1 .write)
  else if c = '<' then some (lexer.redirection 0 .read)
  else if c = '\'' then some { lexer.quote with mode := .single }
  else if c = '"' then some { lexer.quote with mode := .double }
  else if c = '\\' then some { lexer with mode := .escape false }
  else if c = '$' then some { lexer with mode := .dollar false }
  else if c = '#' ∧ lexer.word.isNone then some { lexer with mode := .comment }
  else if c = '(' ∨ c = ')' ∨ c = '\x60' then none
  else some (lexer.add (.char c))

/-- Take a character inside of double quotes. -/
def quoted (lexer : Lexer) (c : Char) : Option Lexer :=
  let lexer := { lexer with mode := .double }
  if c = '"' then some { lexer with mode := .bare }
  else if c = '\\' then some { lexer with mode := .escape true }
  else if c = '$' then some { lexer with mode := .dollar true }
  else if c = '\x60' then none
  else some (lexer.add (.char c))

/-- Take a character inside of double quotes or outside. -/
def resume (lexer : Lexer) (inQuotes : Bool) (c : Char) : Option Lexer :=
  if inQuotes then lexer.quoted c else lexer.bare c

/-- The mode inside of double quotes or outside. -/
def modeOf (inQuotes : Bool) : Mode := if inQuotes then .double else .bare

/-- Take a character after a dollar sign. -/
def afterDollar (lexer : Lexer) (inQuotes : Bool) (c : Char) : Option Lexer :=
  if c = '?' then some { lexer.add .status with mode := modeOf inQuotes }
  else if c = '$' then some { lexer.add .process with mode := modeOf inQuotes }
  else if c.isAlpha ∨ c = '_' then some { lexer with mode := .name inQuotes }
  else if c.isDigit then some { lexer with mode := modeOf inQuotes }
  else if c = '(' ∨ c = '\x7b' then none
  else (lexer.add (.char '$')).resume inQuotes c

/-- Take a character after a backslash. Inside of double quotes it is kept, except
before the characters that mean something there. -/
def afterBackslash (lexer : Lexer) (inQuotes : Bool) (c : Char) : Lexer :=
  let lexer := { lexer with mode := modeOf inQuotes }
  if c = '\n' then lexer
  else if inQuotes && !(c == '$' || c == '"' || c == '\\' || c == '\x60') then
    (lexer.add (.char '\\')).add (.char c)
  else (lexer.add (.char c)).quote

/-- Take a character; none if the script is refused. -/
def step (lexer : Lexer) (c : Char) : Option Lexer :=
  match lexer.mode with
  | .bare => lexer.bare c
  | .escape inQuotes => some (lexer.afterBackslash inQuotes c)
  | .single =>
    if c = '\'' then some { lexer with mode := .bare } else some (lexer.add (.char c))
  | .double => lexer.quoted c
  | .dollar inQuotes => lexer.afterDollar inQuotes c
  | .name inQuotes =>
    if c.isAlphanum ∨ c = '_' then some lexer else lexer.resume inQuotes c
  | .comment => if c = '\n' then lexer.bare c else some lexer
  | .ampersand => if c = '&' then some (lexer.token (.link .onSuccess)) else none
  | .bar =>
    if c = '|' then some (lexer.token (.link .onFailure)) else (lexer.token .pipe).bare c
  | .redirect stream .write =>
    if c = '>' then some (lexer.token (.redirect stream .append))
    else if c = '&' then some (lexer.token (.redirect stream .duplicate))
    else if c = '|' then some (lexer.token (.redirect stream .write))
    else (lexer.token (.redirect stream .write)).bare c
  | .redirect stream redirection =>
    if c = '&' then some (lexer.token (.redirect stream .duplicate))
    else if c = '<' then none
    else (lexer.token (.redirect stream redirection)).bare c

/-- End the script; quotes must be closed. -/
def finish (lexer : Lexer) : Option (List Token) :=
  match lexer.mode with
  | .bare | .comment | .name false => some lexer.endWord.tokens.reverse
  | .escape false => some (lexer.add (.char '\\')).endWord.tokens.reverse
  | .dollar false => some (lexer.add (.char '$')).endWord.tokens.reverse
  | .bar => some (lexer.token .pipe).tokens.reverse
  | .redirect stream redirection => some (lexer.token (.redirect stream redirection)).tokens.reverse
  | _ => none

end Lexer

/-- The tokens of a script. -/
def tokens? (text : List Char) : Option (List Token) := do
  (← text.foldlM Lexer.step {}).finish

/-- A command with its redirections, in order. -/
structure Command where
  words : List Word := []
  redirects : List (Nat × Redirection × Word) := []

namespace Command

/-- Whether the command says nothing. -/
def isEmpty (command : Command) : Bool := command.words.isEmpty && command.redirects.isEmpty

end Command

/-- Commands, each reading what the one before it writes. -/
structure Pipeline where
  negated : Bool
  commands : List Command

namespace Pipeline

/-- A pipeline of commands; an exclamation mark at its start negates it. -/
def ofCommands : List Command → Pipeline
  | { words := { parts := [.char '!'], quoted := false } :: words, redirects } :: rest =>
    { negated := true, commands := { words, redirects } :: rest }
  | commands => { negated := false, commands }

end Pipeline

/-- What has been read of a list of pipelines. -/
structure Reading where
  done : List (Link × Pipeline) := []
  /-- When the pipeline that is read next runs. -/
  link : Link := .always
  /-- Its commands before the last. -/
  earlier : List Command := []
  current : Command := {}

namespace Reading

/-- End the pipeline, if there is one. -/
def endPipeline? (reading : Reading) (link : Link) : Option Reading :=
  if reading.current.isEmpty then none
  else
    let pipeline := Pipeline.ofCommands (reading.earlier ++ [reading.current])
    some { done := reading.done ++ [(reading.link, pipeline)], link }

end Reading

/-- The pipelines of a list of tokens. -/
def parseTokens? (reading : Reading) : List Token → Option (List (Link × Pipeline))
  | [] =>
    if reading.current.isEmpty ∧ reading.earlier.isEmpty ∧ reading.link = .always then
      some reading.done
    else (reading.endPipeline? .always).map Reading.done
  | .word word :: rest =>
    let current := reading.current
    parseTokens?
      { reading with current := { current with words := current.words ++ [word] } } rest
  | .redirect stream redirection :: .word target :: rest =>
    let current := reading.current
    parseTokens?
      { reading with
        current := { current with
          redirects := current.redirects ++ [(stream, redirection, target)] } } rest
  | .redirect _ _ :: _ => none
  | .pipe :: rest =>
    if reading.current.isEmpty then none
    else
      parseTokens?
        { reading with earlier := reading.earlier ++ [reading.current], current := {} } rest
  | .link link :: rest => (reading.endPipeline? link).bind fun reading => parseTokens? reading rest
  | .newline :: rest =>
    if reading.current.isEmpty then parseTokens? reading rest
    else (reading.endPipeline? .always).bind fun reading => parseTokens? reading rest

/-- Read a script. -/
def parse? (text : List Char) : Option (List (Link × Pipeline)) := do
  parseTokens? {} (← tokens? text)

end IsaLogic.Script
