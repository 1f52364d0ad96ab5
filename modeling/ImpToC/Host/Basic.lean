import ImpToC.Text.Bytes

/-!
What the command line needs of the machine that it runs on, in any monad: files
and directories, other programs, and a log. Calls of the system may fail, as it
says. What libraries of the machine decide by themselves is left to it: where a
program is looked for, what the log shows, and how an error is told.
-/
namespace ImpToC

/-- A failed system call. -/
structure SystemError where
  code : Nat
  reason : String
  deriving DecidableEq, Repr

namespace SystemError

def message (e : SystemError) : String :=
  e.reason ++ " (os error " ++ toString e.code ++ ")"

def notFound : SystemError := ⟨2, "No such file or directory"⟩
def notExecutable : SystemError := ⟨8, "Exec format error"⟩
def noChild : SystemError := ⟨10, "No child processes"⟩
def denied : SystemError := ⟨13, "Permission denied"⟩
def alreadyExists : SystemError := ⟨17, "File exists"⟩
def notDirectory : SystemError := ⟨20, "Not a directory"⟩
def isDirectory : SystemError := ⟨21, "Is a directory"⟩
def nameTooLong : SystemError := ⟨36, "File name too long"⟩
def unsupported : SystemError := ⟨38, "Function not implemented"⟩

end SystemError

/-- How a program ended. -/
inductive ExitStatus where
  | code (value : Nat)
  | signal (number : Nat)
  deriving DecidableEq, Repr

namespace ExitStatus

/-- Names of the signals from one on. -/
def signalNames : List String :=
  ["SIGHUP", "SIGINT", "SIGQUIT", "SIGILL", "SIGTRAP", "SIGABRT", "SIGBUS", "SIGFPE", "SIGKILL",
    "SIGUSR1", "SIGSEGV", "SIGUSR2", "SIGPIPE", "SIGALRM", "SIGTERM", "SIGSTKFLT", "SIGCHLD",
    "SIGCONT", "SIGSTOP", "SIGTSTP", "SIGTTIN", "SIGTTOU", "SIGURG", "SIGXCPU", "SIGXFSZ",
    "SIGVTALRM", "SIGPROF", "SIGWINCH", "SIGIO", "SIGPWR", "SIGSYS"]

def describe : ExitStatus → String
  | code value => "exit status: " ++ toString value
  | signal number =>
    "signal: " ++ toString number ++
      (match signalNames[number - 1]? with
      | some name => " (" ++ name ++ ")"
      | none => "")

def isSuccess : ExitStatus → Bool
  | code value => value == 0
  | signal _ => false

end ExitStatus

/-- What a program leaves when it has ended. -/
structure Finished where
  status : ExitStatus
  stdout : Bytes
  stderr : Bytes
  deriving DecidableEq, Repr

/-- How much an entry of the log matters. -/
inductive Severity where
  | debug | trace
  deriving DecidableEq, Repr

/-- An entry of the log: what it says, and values that go with it, by name. -/
structure LogEntry where
  severity : Severity
  fields : List (String × String)
  message : String
  deriving DecidableEq, Repr

namespace LogEntry

def debug (fields : List (String × String)) (message : String) : LogEntry := ⟨.debug, fields, message⟩

def trace (fields : List (String × String)) (message : String) : LogEntry := ⟨.trace, fields, message⟩

end LogEntry

/-- What is agreed on with the libraries of the machine. -/
structure Host.Conventions where
  /-- Whether a text says what the log is to show. -/
  isLogFilter : String → Bool
  /-- How an error is told that ends the program: its message and its causes,
  outermost first. -/
  describeError : String → List String → String

/-- Paths of other programs are bytes, since not all of them are texts. -/
structure Host (m : Type → Type) where
  conventions : Host.Conventions
  /-- The contents of a file. -/
  load : String → m (Except SystemError Bytes)
  /-- Make a directory and those it lies in, as far as they are missing. -/
  makeDirectories : String → m (Except SystemError Unit)
  /-- Write a file anew. -/
  store : String → Bytes → m (Except SystemError Unit)
  /-- The path of the program that goes by a name, if one is found. -/
  find : String → m (Option Bytes)
  /-- Run a program with arguments and wait for its end. -/
  execute : Bytes → List String → m (Except SystemError Finished)
  /-- Show on the error channel, from now on, what passes a filter of the log. -/
  startLog : String → m Unit
  /-- Hand an entry to the log. -/
  log : LogEntry → m Unit

end ImpToC
