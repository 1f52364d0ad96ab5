import ImpToC.Host.Basic
import ImpToC.Settings

/-!
Building emitted C with a compiler of the host and running the result.
-/
namespace ImpToC

inductive BuildError where
  | noCompiler
  | system (context : String) (error : SystemError)
  | compilation (stderr : String)
  | execution (status : ExitStatus) (stderr : String)
  deriving DecidableEq, Repr

namespace Build

/-- The compilers looked for, in this order. -/
def candidates : List String := ["cc", "gcc", "clang"]

end Build

namespace BuildError

def message : BuildError → String
  | noCompiler => "no C compiler found (tried $CC, " ++ ", ".intercalate Build.candidates ++ ")"
  | system context error => context ++ ": " ++ error.message
  | compilation stderr => "C compilation failed:\n" ++ stderr
  | execution status stderr => "program exited with " ++ status.describe ++ ":\n" ++ stderr

/-- The error and what caused it, outermost first. -/
def chain : BuildError → List String
  | system context error => [(system context error).message, error.message]
  | e => [e.message]

end BuildError

namespace Build

variable {m : Type → Type} [Monad m]

/-- The first of the names that a program goes by. -/
def findFirst? (host : Host m) : List String → m (Option Bytes)
  | [] => pure none
  | name :: names => do
    match ← host.find name with
    | some path => pure (some path)
    | none => findFirst? host names

def usingCompiler (compiler : Bytes) : LogEntry :=
  .debug [("compiler", Bytes.toTextLossy compiler)] "using C compiler"

def wroteSource (path : String) : LogEntry := .debug [("path", path)] "wrote C source"

def compiledExecutable (path : String) : LogEntry := .debug [("path", path)] "compiled executable"

/-- The compiler of the settings, else the one that `CC` names, which need not be
a text here. An empty path names none. -/
def named? (env : Environment) (configured : Option String) : Option Bytes :=
  ((configured.map Bytes.ofText).or (env "CC")).filter fun path => path != []

/-- The compiler that is named, or the first candidate that is found. -/
def choose (host : Host m) (env : Environment) (configured : Option String) : m (Option Bytes) :=
  match named? env configured with
  | some path => pure (some path)
  | none => findFirst? host candidates

def locate (host : Host m) (env : Environment) (configured : Option String) :
    m (Except BuildError Bytes) := do
  match ← choose host env configured with
  | none => pure (.error .noCompiler)
  | some compiler => do
    host.log (usingCompiler compiler)
    pure (.ok compiler)

/-- A call of the host, with what it was for should it fail. -/
def during {α : Type} (context : String) (call : m (Except SystemError α)) : ExceptT BuildError m α :=
  ExceptT.mk do
    match ← call with
    | .ok value => pure (.ok value)
    | .error e => pure (.error (.system context e))

/-- A word to the log, which does not fail. -/
def note (host : Host m) (entry : LogEntry) : ExceptT BuildError m Unit :=
  ExceptT.mk do
    host.log entry
    pure (.ok ())

/-- Write the C text into the directory and compile it: the path of the executable. -/
def build (host : Host m) (compiler : Bytes) (directory code : String) : ExceptT BuildError m String := do
  during ("creating " ++ directory) (host.makeDirectories directory)
  let source := Path.join directory "output.c"
  let executable := Path.join directory "output"
  during ("writing " ++ source) (host.store source (.ofText code))
  note host (wroteSource source)
  let finished ← during ("running " ++ Bytes.toTextLossy compiler)
    (host.execute compiler [source, "-o", executable])
  if finished.status.isSuccess then
    note host (compiledExecutable executable)
    return executable
  else throw (.compilation (Bytes.toTextLossy finished.stderr))

/-- Run the executable: what it prints. -/
def runExecutable (host : Host m) (executable : String) : ExceptT BuildError m String := do
  let finished ← during ("running " ++ executable) (host.execute (.ofText executable) [])
  if finished.status.isSuccess then return Bytes.toTextLossy finished.stdout
  else throw (.execution finished.status (Bytes.toTextLossy finished.stderr))

def buildAndRun (host : Host m) (compiler : Bytes) (directory code : String) :
    ExceptT BuildError m String := do
  runExecutable host (← build host compiler directory code)

end Build

end ImpToC
