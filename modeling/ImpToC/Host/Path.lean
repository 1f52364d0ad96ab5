/-!
Paths as texts with slashes. Doubled slashes and single dots do not matter,
save for a dot at the very front, and two paths are the same if their
components are.
-/
namespace ImpToC.Path

inductive Component where
  | root | here | up
  | name (text : String)
  deriving DecidableEq, Repr

def isRooted (path : String) : Bool := path.toList.head? == some '/'

/-- The texts between slashes. -/
def parts (path : String) : List String := path.splitOn "/"

def component? (part : String) : Option Component :=
  if part = "" ∨ part = "." then none
  else if part = ".." then some .up
  else some (.name part)

def components (path : String) : List Component :=
  let inner := (parts path).filterMap component?
  if isRooted path then .root :: inner
  else
    match parts path with
    | "." :: _ => .here :: inner
    | _ => inner

def same (a b : String) : Bool := components a == components b

/-- A name within a directory; the empty directory leaves the name as it is. -/
def join (directory name : String) : String :=
  if isRooted name ∨ directory = "" then name
  else if directory.toList.getLast? == some '/' then directory ++ name
  else directory ++ "/" ++ name

end ImpToC.Path
