import IsaLogic.Tool.Basic
import IsaLogic.Tool.Script
import IsaLogic.Tool.Utility

/-!
# Running scripts

A script runs on a few files and leaves behind what it wrote, how it ended and how
long it slept. Nothing else takes time. Commands other than the utilities and the
few that concern the shell itself do not exist. The host of the command line has
this shell and no other program.
-/

namespace IsaLogic

namespace Shell

open Digest (textBytes)
open Script
open Utility

/-- Where a stream goes. -/
inductive Sink where
  | output
  | errors
  /-- To the next command of the pipeline. -/
  | pipe
  | file (name : String)
  | nowhere
deriving DecidableEq

/-- The streams of a command. -/
structure Streams where
  input : Bytes := []
  output : Sink := .output
  errors : Sink := .errors

/-- What a script has done so far. -/
structure State where
  files : Files
  output : Bytes := []
  errors : Bytes := []
  pipe : Bytes := []
  /-- The time slept, in milliseconds. -/
  elapsed : Nat := 0
  /-- The status of the last command. -/
  status : Nat := 0

/-- Whether a script goes on after a command. -/
inductive Flow where
  | next
  | ended
  | killed (signal : Nat)
deriving DecidableEq

namespace State

/-- Put content into a file. -/
def setFile (state : State) (name : String) (content : Bytes) : State :=
  { state with files := (name, content) :: state.files.filter fun file => file.1 != name }

/-- The content of a file; a file that is not there is empty. -/
def file (state : State) (name : String) : Bytes :=
  ((state.files.find? fun file => file.1 == name).map Prod.snd).getD []

/-- Write to a stream. -/
def write (state : State) (sink : Sink) (bytes : Bytes) : State :=
  match sink with
  | .output => { state with output := state.output ++ bytes }
  | .errors => { state with errors := state.errors ++ bytes }
  | .pipe => { state with pipe := state.pipe ++ bytes }
  | .file name => state.setFile name (state.file name ++ bytes)
  | .nowhere => state

/-- End a command with a status. -/
def ends (state : State) (status : Nat) : State := { state with status }

/-- Do what a utility does. -/
def apply (state : State) (streams : Streams) (result : Result) : State :=
  ((state.write streams.output result.output).write streams.errors result.errors).ends
    result.status

end State

/-- The number of the shell process. -/
def processNumber : Nat := 2

/-- The characters of a piece of a word. -/
def expandPart (state : State) : Part → List Char
  | .char c => [c]
  | .status => (toString state.status).toList
  | .process => (toString processNumber).toList

/-- The text of a word; none if the word is dropped. -/
def expand? (state : State) (word : Word) : Option String :=
  let chars := word.parts.flatMap (expandPart state)
  if chars.isEmpty && !word.quoted then none else some (String.ofList chars)

/-- The stream that a number names. -/
def Streams.sink (streams : Streams) : String → Sink
  | "1" => streams.output
  | "2" => streams.errors
  | _ => .nowhere

/-- Send a stream elsewhere. -/
def Streams.redirect (streams : Streams) (number : Nat) (sink : Sink) : Streams :=
  match number with
  | 1 => { streams with output := sink }
  | 2 => { streams with errors := sink }
  | _ => streams

/-- Where a file name leads. -/
def sinkOf (streams : Streams) : String → Sink
  | "/dev/null" => .nowhere
  | "/dev/stdout" => streams.output
  | "/dev/stderr" => streams.errors
  | name => .file name

/-- Set up the redirections of a command; a file to be read must be there. -/
def redirect (streams : Streams) (state : State) :
    List (Nat × Redirection × Word) → Except String (Streams × State)
  | [] => .ok (streams, state)
  | (number, redirection, word) :: rest => do
    let target := (expand? state word).getD ""
    match redirection with
    | .read =>
      match content? state.files [] target with
      | some input => redirect { streams with input } state rest
      | none => throw ("cannot open " ++ target ++ ": No such file")
    | .duplicate => redirect (streams.redirect number (streams.sink target)) state rest
    | .append => redirect (streams.redirect number (sinkOf streams target)) state rest
    | .write =>
      let state := match sinkOf streams target with
        | .file name => state.setFile name []
        | _ => state
      redirect (streams.redirect number (sinkOf streams target)) state rest

/-- The signal that an option of `kill` names. -/
def signal? (name : String) : Option Nat :=
  match name.toNat? with
  | some number => some number
  | none =>
    let full := if name.startsWith "SIG" then name else "SIG" ++ name
    (ExitStatus.signalNames.idxOf? full).map (· + 1)

/-- Send a signal. The shell itself ends by it; there is no other process. -/
def kill (streams : Streams) (state : State) (arguments : List String) : Flow × State :=
  let (signal, targets) := match arguments with
    | "-s" :: name :: targets => (signal? name, targets)
    | option :: targets =>
      if option.startsWith "-" then (signal? (String.ofList (option.toList.drop 1)), targets)
      else (some 15, option :: targets)
    | [] => (some 15, [])
  match signal with
  | none => (.next, state.apply streams (failure 2 "sh: 1: kill: Illegal option"))
  | some signal =>
    if targets.contains (toString processNumber) then
      if signal = 0 then (.next, state.ends 0) else (.killed signal, state)
    else (.next, state.apply streams (failure 1 "sh: 1: kill: No such process"))

/-- A decimal number of seconds in milliseconds. -/
def milliseconds? (text : String) : Option Nat :=
  match text.splitOn "." with
  | [whole] => whole.toNat?.map (· * 1000)
  | [whole, part] => do
    let whole ← if whole.isEmpty then some 0 else whole.toNat?
    let part ← (String.ofList ((part.toList ++ "000".toList).take 3)).toNat?
    return whole * 1000 + part
  | _ => none

/-- Sleep for the sum of some times. -/
def sleep (streams : Streams) (state : State) (arguments : List String) : State :=
  match arguments.mapM milliseconds? with
  | some times => { state with elapsed := times.foldl (· + ·) state.elapsed, status := 0 }
  | none => state.apply streams (failure 1 "sleep: invalid time interval")

/-- Run a command by its name. -/
def runNamed (streams : Streams) (state : State) (name : String) (arguments : List String) :
    Flow × State :=
  match name with
  | ":" | "true" => (.next, state.ends 0)
  | "false" => (.next, state.ends 1)
  | "echo" => (.next, state.apply streams (echo arguments))
  | "printf" => (.next, state.apply streams (printf arguments))
  | "cat" => (.next, state.apply streams (cat state.files streams.input arguments))
  | "head" => (.next, state.apply streams (head state.files streams.input arguments))
  | "grep" => (.next, state.apply streams (grep state.files streams.input arguments))
  | "sleep" => (.next, sleep streams state arguments)
  | "kill" => kill streams state arguments
  | "exit" =>
    match arguments with
    | [] => (.ended, state)
    | number :: _ =>
      match number.toNat? with
      | some status => (.ended, state.ends (status % 256))
      | none =>
        (.ended, state.apply streams (failure 2 ("sh: 1: exit: Illegal number: " ++ number)))
  | name => (.next, state.apply streams (failure 127 ("sh: 1: " ++ name ++ ": not found")))

/-- Run the words of a command. A command that replaces the shell ends the script. -/
def runWords (streams : Streams) (state : State) : List String → Flow × State
  | [] | ["exec"] => (.next, state.ends 0)
  | "exec" :: name :: arguments =>
    match runNamed streams state name arguments with
    | (.next, state) => (.ended, state)
    | other => other
  | name :: arguments => runNamed streams state name arguments

/-- Run a command. -/
def runCommand (streams : Streams) (state : State) (command : Command) : Flow × State :=
  match redirect streams state command.redirects with
  | .ok (streams, state) => runWords streams state (command.words.filterMap (expand? state))
  | .error message => (.next, state.apply streams (failure 2 ("sh: 1: " ++ message)))

/-- Run the commands of a pipeline, each in a shell of its own. -/
def runPiped (streams : Streams) (state : State) : List Command → Flow × State
  | [] => (.next, state)
  | [command] =>
    match runCommand streams state command with
    | (.killed signal, state) => (.killed signal, state)
    | (_, state) => (.next, state)
  | command :: rest =>
    match runCommand { streams with output := .pipe } { state with pipe := [] } command with
    | (.killed signal, state) => (.killed signal, state)
    | (_, after) => runPiped { streams with input := after.pipe } { after with pipe := [] } rest

/-- Run a pipeline. One command alone runs in the shell itself. -/
def runPipeline (state : State) (pipeline : Pipeline) : Flow × State :=
  let (flow, state) := match pipeline.commands with
    | [command] => runCommand {} state command
    | commands => runPiped {} state commands
  if pipeline.negated && flow == .next then
    (flow, state.ends (if state.status = 0 then 1 else 0))
  else (flow, state)

/-- Run pipelines in order, passing over those whose condition is not met. -/
def runAll (state : State) : List (Link × Pipeline) → ExitStatus × State
  | [] => (.code state.status, state)
  | (link, pipeline) :: rest =>
    let wanted := match link with
      | .always => true
      | .onSuccess => state.status == 0
      | .onFailure => state.status != 0
    if wanted then
      match runPipeline state pipeline with
      | (.next, state) => runAll state rest
      | (.ended, state) => (.code state.status, state)
      | (.killed signal, state) => (.signal signal false, state)
    else runAll state rest

/-- Run a script on some files. -/
def runScript (files : Files) (text : String) : ExitStatus × State :=
  let state : State := { files }
  match Script.parse? text.toList with
  | some pipelines => runAll state pipelines
  | none => (.code 2, state.apply {} (failure 2 "sh: 1: Syntax error"))

/-- Run a shell with arguments: a script in an argument or in a file. -/
def run (files : Files) : List String → ExitStatus × State
  | [] => (.code 0, { files })
  | ["-c"] => (.code 2, State.apply { files } {} (failure 2 "sh: 0: -c requires an argument"))
  | "-c" :: text :: _ => runScript files text
  | name :: _ =>
    match content? files [] name with
    | some bytes => runScript files (String.ofList (byteChars bytes))
    | none =>
      (.code 2,
        State.apply { files } {} (failure 2 ("sh: 0: cannot open " ++ name ++ ": No such file")))

/-- The programs that are the shell. -/
def isShell (program : String) : Bool := program == "sh" || program == "/bin/sh"

/-- The host on which the shell is the only program. -/
def host : Host where
  scratch := "/tmp/scratch"
  launch program arguments query result :=
    if isShell program then
      let (status, state) := run [query] arguments
      .ran {
        foundRunning := some state.elapsed
        status
        stdout := state.output
        stderr := state.errors
        result := some (state.file result) }
    else .refused "No such file or directory (os error 2)"

end Shell

end IsaLogic
