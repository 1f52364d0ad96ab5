import ImpToC.Host.FileTree

/-!
A machine in memory: a tree of files, a working directory, the directories to
look for programs in, and what each program does when it is run. Beside it
stands its log.
-/
namespace ImpToC

/-- What running a file does: from the path it was run by, its contents, its
arguments and the files at that time to how it ends and the files afterwards. -/
abbrev Programs :=
  String → Bytes → List String → FileTree → Except SystemError (Finished × FileTree)

structure Machine where
  files : FileTree
  cwd : List String
  searchPath : Option String

namespace Machine

/-- Run the file at a path. -/
def executeAt (programs : Programs) (path : String) (args : List String) (s : Machine) :
    Except SystemError (Finished × FileTree) := do
  match s.files.get? (← s.files.resolve s.cwd path) with
  | none => .error .notFound
  | some (.file content true) => programs path content args s.files
  | some _ => .error .denied

/-- The directories of a search path. One whose own path is too long counts as
the working directory, and is left out at the end. -/
def directories (searchPath : String) : List String :=
  let isLong (directory : String) : Bool := FileTree.maxPathLength < directory.utf8ByteSize
  let all := searchPath.splitOn ":"
  all.dropLast.map (fun directory => if isLong directory then "" else directory) ++
    (all.getLast?.filter fun directory => !isLong directory).toList

/-- Look for a program in directories, one after the other. A file that may not
be run does not end the search, but the search then fails for that reason. Else
it fails for the reason of the last directory. -/
def executeIn (programs : Programs) (name : String) (args : List String) (s : Machine)
    (unfound : SystemError) : List String → Except SystemError (Finished × FileTree)
  | [] => .error unfound
  | directory :: directories =>
    match executeAt programs (if directory = "" then name else directory ++ "/" ++ name) args s with
    | .ok result => .ok result
    | .error e =>
      if e = .denied then executeIn programs name args s .denied directories
      else if e = .notFound ∨ e = .notDirectory then
        executeIn programs name args s (if unfound = .denied then .denied else e) directories
      else .error e

/-- A name without a slash is looked for, any other is a path. -/
def execute (programs : Programs) (name : String) (args : List String) (s : Machine) :
    Except SystemError (Finished × FileTree) :=
  if name = "" then .error .notFound
  else if name.toList.contains '/' then executeAt programs name args s
  else
    match directories (s.searchPath.getD "/bin:/usr/bin") with
    | [] => .error .noChild
    | all => executeIn programs name args s .notFound all

/-- The filter of the log, once there is one, and all that was handed to it. -/
structure Log where
  filter : Option String
  entries : List LogEntry
  deriving DecidableEq, Repr

/-- Keep the machine if a change of its files fails. -/
def update (change : Machine → Except SystemError FileTree) :
    StateM (Machine × Log) (Except SystemError Unit) := fun (s, log) =>
  match change s with
  | .ok files => (.ok (), { s with files }, log)
  | .error e => (.error e, s, log)

/-- A program whose path is no text is nowhere in the tree. -/
def host (conventions : Host.Conventions) (find : Machine → String → Option Bytes) (programs : Programs) :
    Host (StateM (Machine × Log)) where
  conventions
  load path := fun (s, log) => (s.files.load s.cwd path, s, log)
  makeDirectories path := update fun s => s.files.makeDirectories s.cwd path
  store path content := update fun s => s.files.store s.cwd path content
  find name := fun (s, log) => (find s name, s, log)
  execute program args := fun (s, log) =>
    match program.toText? with
    | none => (.error .notFound, s, log)
    | some name =>
      match execute programs name args s with
      | .ok (finished, files) => (.ok finished, { s with files }, log)
      | .error e => (.error e, s, log)
  startLog filter := fun (s, log) => ((), s, { log with filter := some filter })
  log entry := fun (s, log) => ((), s, { log with entries := log.entries ++ [entry] })

end Machine

end ImpToC
