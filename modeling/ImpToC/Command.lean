import ImpToC.Build
import ImpToC.CompileLog
import ImpToC.Settings
import ImpToC.Text.Lines

/-!
The command line: read a source file, compile it, and print the C or build and
run it. All the while the log is told what is done; it goes to the error channel
too, but is no part of the report.
-/
namespace ImpToC.Command

/-- The name that the program was started by and its arguments, which are texts,
and the environment. -/
structure Invocation where
  program : String
  args : List String
  env : Environment

/-- What a run leaves for the caller. -/
structure Report where
  exitCode : Nat
  stdout : String
  stderr : String
  deriving DecidableEq, Repr

def usage (program : String) : String :=
  "Usage: " ++ program ++ " <file>\n\nEnvironment:\n" ++
  "  CCCP_OUTPUT_DIR  directory for output.c and the executable (default: output)\n" ++
  "  CC               C compiler to use\n" ++
  "  CCCP_EMIT_ONLY   print the generated C instead of running it\n" ++
  "  CCCP_LOG         log filter, e.g. debug or cccp=trace\n" ++
  "  CCCP_DEBUG       verbose logging with token and AST dumps\n"

/-- The source line of a place with a mark under its column, if it has that line. -/
def excerpt (source : String) (l : Location) : String :=
  match (Text.lines source)[l.line - 1]? with
  | none => ""
  | some line =>
    "  " ++ line ++ "\n  " ++ String.join (List.replicate (l.column - 1) " ") ++ "^\n"

/-- What is wrong with a source. -/
def complaint (path source : String) : CompileError → String
  | .malformed ds =>
    "Parser errors in " ++ path ++ ":\n" ++ String.join (ds.map fun d => "\t" ++ d.describe ++ "\n")
  | .noCode e => "Error in " ++ path ++ ": " ++ e.message ++ "\n" ++ excerpt source e.location

def failure (conventions : Host.Conventions) (message : String) (causes : List String) : Report :=
  ⟨1, "", conventions.describeError message causes⟩

/-- What the log shows: with the switch for it all but the traces, else what
`CCCP_LOG` says if that is a filter, else warnings. -/
def logFilter (conventions : Host.Conventions) (env : Environment) (settings : Settings) : String :=
  if settings.debug then "debug"
  else
    match env.text? "CCCP_LOG" with
    | some filter => if conventions.isLogFilter filter then filter else "warn"
    | none => "warn"

/-- What the log is told of a source: how it is compiled, and with the switch for
it the tokens before that. -/
def sourceLog (settings : Settings) (source : String) : List LogEntry :=
  (if settings.debug then tokenLog source else []) ++ compileLog source

variable {m : Type → Type} [Monad m]

def logAll (host : Host m) : List LogEntry → m Unit
  | [] => pure ()
  | entry :: entries => do
    host.log entry
    logAll host entries

/-- The text of a file, or why there is none. -/
def readSource (host : Host m) (path : String) : m (Except String String) := do
  match ← host.load path with
  | .error e => pure (.error e.message)
  | .ok bytes =>
    match bytes.toText? with
    | some text => pure (.ok text)
    | none => pure (.error "stream did not contain valid UTF-8")

/-- Build and run the C text of the source at `path`. -/
def execute (host : Host m) (env : Environment) (settings : Settings) (path code : String) :
    m Report := do
  match ← Build.locate host env settings.compiler with
  | .error e => pure (failure host.conventions e.message [])
  | .ok compiler =>
    match ← (Build.buildAndRun host compiler settings.outputDir code).run with
    | .ok stdout => pure ⟨0, stdout, ""⟩
    | .error e =>
      let attempted := "building " ++ path ++ " with " ++ Bytes.toTextLossy compiler ++ " in " ++ settings.outputDir
      pure (failure host.conventions attempted e.chain)

def runFile (host : Host m) (env : Environment) (path : String) : m Report := do
  let settings := Settings.ofEnvironment env
  host.startLog (logFilter host.conventions env settings)
  match ← readSource host path with
  | .error cause => pure (failure host.conventions ("reading " ++ path) [cause])
  | .ok source => do
    logAll host (sourceLog settings source)
    match compile source with
    | .error e => pure ⟨1, "", complaint path source e⟩
    | .ok code =>
      if settings.emitOnly then pure ⟨0, code, ""⟩
      else execute host env settings path code

/-- One source file is expected and nothing else. -/
def run (host : Host m) (invocation : Invocation) : m Report :=
  match invocation.args with
  | [path] => runFile host invocation.env path
  | _ => pure ⟨2, "", usage invocation.program⟩

end ImpToC.Command
