import IsaLogic.Digest.Tagged
import IsaLogic.Error
import IsaLogic.Text.Blank

/-!
# External tools

A tool is a program with arguments and perhaps a time limit. It is given a query
in a file and leaves its result on its standard output or in a second file; the
arguments name the two files by placeholders. What programs there are and what they
do is up to the host that runs them, of which nothing is assumed.
-/

namespace IsaLogic

/-- How to run a tool. -/
structure Tool where
  program : String
  args : List String := []
  /-- The time limit in seconds. -/
  timeout : Option Nat := none
deriving DecidableEq, Repr

/-- How a process ended. -/
inductive ExitStatus where
  | code (number : Nat)
  | signal (number : Nat) (coreDumped : Bool)
deriving DecidableEq, Repr

namespace ExitStatus

/-- The names of the signals from one on. -/
def signalNames : List String := [
  "SIGHUP", "SIGINT", "SIGQUIT", "SIGILL", "SIGTRAP", "SIGABRT", "SIGBUS", "SIGFPE", "SIGKILL",
  "SIGUSR1", "SIGSEGV", "SIGUSR2", "SIGPIPE", "SIGALRM", "SIGTERM", "SIGSTKFLT", "SIGCHLD",
  "SIGCONT", "SIGSTOP", "SIGTSTP", "SIGTTIN", "SIGTTOU", "SIGURG", "SIGXCPU", "SIGXFSZ",
  "SIGVTALRM", "SIGPROF", "SIGWINCH", "SIGIO", "SIGPWR", "SIGSYS"]

/-- The status as messages print it. -/
def text : ExitStatus → String
  | code number => "exit status: " ++ toString number
  | signal number coreDumped =>
    let name := match signalNames[number - 1]? with
      | some name => " (" ++ name ++ ")"
      | none => ""
    "signal: " ++ toString number ++ name ++ if coreDumped then " (core dumped)" else ""

end ExitStatus

/-- A program that has run. One that does not end by itself is found running later than any time
limit, and its other fields are of no account. -/
structure Execution where
  /-- When the program was last found running, in milliseconds from its start, if it was. -/
  foundRunning : Option Nat := none
  status : ExitStatus
  stdout : Bytes := []
  stderr : Bytes := []
  /-- The content of the file for the result, if there is one now. -/
  result : Option Bytes := none
deriving DecidableEq, Repr

/-- What comes of a program that is to be run. -/
inductive Launch where
  | ran (execution : Execution)
  /-- The program cannot be started. -/
  | refused (reason : String)
  /-- A file cannot be written or read. -/
  | broken (reason : String)
deriving DecidableEq, Repr

/-- What runs programs. -/
structure Host where
  /-- The directory for the files of a query. -/
  scratch : String
  /-- Run a program with arguments, where the file for the query has its name and content, and look
  for the file for the result when it has run. -/
  launch (program : String) (arguments : List String) (query : String × Bytes) (result : String) :
    Launch

/-- What a tool left behind. -/
structure ToolRun where
  status : ExitStatus
  stdout : List Char
  stderr : List Char
  /-- The content of the second file. -/
  output : List Char

namespace Tool

/-- An argument with the names of the files in place. -/
def fillIn (queryFile resultFile argument : String) : String :=
  (argument.replace "\x7binput\x7d" queryFile).replace "\x7boutput\x7d" resultFile

/-- A short name of a query. -/
def queryId (query : String) : String :=
  String.ofList ((Digest.hex (Digest.tagged "query" [Digest.textBytes query])).toList.take 16)

/-- The time limit that a program reached, if it was found running then. A limit of nothing is
reached by any program that is found running. -/
def timesOut (limit foundRunning : Option Nat) : Option Nat :=
  limit.filter fun seconds => foundRunning.any fun elapsed => seconds * 1000 ≤ elapsed

/-- What a tool wrote must be UTF-8. -/
def decode (bytes : Bytes) : Except QueryError (List Char) :=
  match String.fromUTF8? (ByteArray.mk bytes.toArray) with
  | some text => .ok text.toList
  | none => .error (.io "stream did not contain valid UTF-8")

/-- The error of a run that ended badly. -/
def failed (tool : Tool) (query : String) (run : ToolRun) : QueryError :=
  .toolFailed tool.program (queryId query) run.status.text (String.ofList (Text.trim run.stderr))

end Tool

namespace Host

/-- Run a tool on a query, in a file whose name ends in a suffix. -/
def run (host : Host) (tool : Tool) (suffix query : String) : Except QueryError ToolRun :=
  let queryFile := host.scratch ++ "/query." ++ suffix
  let resultFile := host.scratch ++ "/result.out"
  let arguments := tool.args.map (Tool.fillIn queryFile resultFile)
  match host.launch tool.program arguments (queryFile, Digest.textBytes query) resultFile with
  | .refused reason => .error (.toolLaunch tool.program reason)
  | .broken reason => .error (.io reason)
  | .ran execution =>
    match Tool.timesOut tool.timeout execution.foundRunning with
    | some seconds => .error (.toolTimeout tool.program seconds (Tool.queryId query))
    | none => do
      let stdout ← Tool.decode execution.stdout
      let stderr ← Tool.decode execution.stderr
      let output ← Tool.decode (execution.result.getD [])
      return { status := execution.status, stdout, stderr, output }

end Host

namespace ToolRun

/-- The result: the second file, or the standard output if the file is blank. -/
def result (run : ToolRun) : List Char :=
  if (Text.trim run.output).isEmpty then run.stdout else run.output

end ToolRun

end IsaLogic
