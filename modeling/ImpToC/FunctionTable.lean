import ImpToC.Tree

/-!
Functions of a program by name, in the order of their definitions.
-/
namespace ImpToC

/-- A function of the program, also one without a name of its own. -/
structure FunctionDef where
  name : String
  params : List String
  body : Block
  location : Location
  deriving Repr

/-- Functions in the order in which they were found. -/
structure FunctionTable where
  definitions : List FunctionDef
  deriving Repr

namespace FunctionTable

def empty : FunctionTable := ⟨[]⟩

/-- Where the function of this name stands. -/
def position? (t : FunctionTable) (name : String) : Option Nat :=
  t.definitions.findIdx? fun d => d.name == name

def get? (t : FunctionTable) (name : String) : Option FunctionDef :=
  (t.position? name).bind fun i => t.definitions[i]?

/-- Add a function at the end. A definition whose name is taken is handed back. -/
def insert (t : FunctionTable) (d : FunctionDef) : Except FunctionDef FunctionTable :=
  match t.position? d.name with
  | some _ => .error d
  | none => .ok ⟨t.definitions ++ [d]⟩

def size (t : FunctionTable) : Nat := t.definitions.length

def isEmpty (t : FunctionTable) : Bool := t.definitions.isEmpty

def names (t : FunctionTable) : List String := t.definitions.map FunctionDef.name

end FunctionTable

end ImpToC
