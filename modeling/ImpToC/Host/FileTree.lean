import ImpToC.Host.Basic
import ImpToC.Host.Path

/-!
Files and directories of a machine, each under the names that lead to it from
the root. A path is walked part by part: every directory on the way has to be
there.
-/
namespace ImpToC

inductive FileTree.Entry where
  | directory
  | file (content : Bytes) (executable : Bool)
  deriving DecidableEq, Repr

structure FileTree where
  entries : List (List String × FileTree.Entry)
  deriving Repr

namespace FileTree

def empty : FileTree := ⟨[]⟩

/-- The root is always there. -/
def get? (t : FileTree) (names : List String) : Option Entry :=
  match names with
  | [] => some .directory
  | names => t.entries.lookup names

def set (t : FileTree) (names : List String) (entry : Entry) : FileTree :=
  ⟨(names, entry) :: t.entries.filter fun e => e.1 != names⟩

def isDirectory (t : FileTree) (names : List String) : Bool :=
  match t.get? names with
  | some .directory => true
  | _ => false

/-- The longest name of an entry, in bytes. -/
def maxNameLength : Nat := 255

/-- The longest path, in bytes. -/
def maxPathLength : Nat := 4095

/-- Walk on from an entry. The entry at the end need not be there. -/
def walk (t : FileTree) (names : List String) : List String → Except SystemError (List String)
  | [] => .ok names
  | part :: parts =>
    match t.get? names with
    | none => .error .notFound
    | some (.file _ _) => .error .notDirectory
    | some .directory =>
      if part = "" ∨ part = "." then t.walk names parts
      else if part = ".." then t.walk names.dropLast parts
      else if maxNameLength < part.utf8ByteSize then .error .nameTooLong
      else t.walk (names ++ [part]) parts

/-- Where a path leads from the directory `cwd`. -/
def resolve (t : FileTree) (cwd : List String) (path : String) : Except SystemError (List String) :=
  if path = "" then .error .notFound
  else if maxPathLength < path.utf8ByteSize then .error .nameTooLong
  else t.walk (if Path.isRooted path then [] else cwd) (Path.parts path)

def load (t : FileTree) (cwd : List String) (path : String) : Except SystemError Bytes := do
  match t.get? (← t.resolve cwd path) with
  | none => .error .notFound
  | some .directory => .error .isDirectory
  | some (.file content _) => .ok content

/-- Write a file. A file that is there keeps its permission to be run. -/
def store (t : FileTree) (cwd : List String) (path : String) (content : Bytes) :
    Except SystemError FileTree := do
  let names ← t.resolve cwd path
  match t.get? names with
  | some .directory => .error .isDirectory
  | some (.file _ executable) => .ok (t.set names (.file content executable))
  | none => .ok (t.set names (.file content false))

/-- Make one directory. Every other part of the path has to be there, also if
nothing but dots follows. -/
def makeDirectory (t : FileTree) (cwd : List String) (path : List String) :
    Except SystemError FileTree := do
  let names ← t.walk cwd path
  match t.get? names with
  | some _ => .error .alreadyExists
  | none => .ok (t.set names .directory)

/-- Whether a path leads to a directory that is there. -/
def leadsToDirectory (t : FileTree) (cwd : List String) (path : List String) : Bool :=
  match t.walk cwd path with
  | .ok names => t.isDirectory names
  | .error _ => false

/-- Make the first of these directories. If what it lies in is missing, the
others are made first: each lies in the next one. -/
def makeFirst (t : FileTree) (cwd : List String) : List (List String) → Except SystemError FileTree
  | [] => .ok t
  | path :: outer =>
    match t.makeDirectory cwd path with
    | .ok t => .ok t
    | .error e =>
      if e = .notFound then
        match t.makeFirst cwd outer with
        | .error e => .error e
        | .ok t =>
          match t.makeDirectory cwd path with
          | .ok t => .ok t
          | .error e => if t.leadsToDirectory cwd path then .ok t else .error e
      else if t.leadsToDirectory cwd path then .ok t
      else .error e

/-- What a path lies in, from the inside out: its names without the last one,
and so on down to one name. Single dots are no names. -/
def outer (path : List String) : List (List String) :=
  let names := path.filter fun part => part != "."
  (List.range (names.length - 1)).reverse.map fun n => names.take (n + 1)

/-- Make a directory and all that are missing on the way to it. Slashes at the
end of the path do not matter, but a dot there does: what it follows is not made. -/
def makeDirectories (t : FileTree) (cwd : List String) (path : String) : Except SystemError FileTree :=
  if maxPathLength < path.utf8ByteSize then .error .nameTooLong
  else
    let parts := (Path.parts path).filter fun part => part != ""
    t.makeFirst (if Path.isRooted path then [] else cwd) (parts :: outer parts)

end FileTree

end ImpToC
