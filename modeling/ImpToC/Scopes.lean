import ImpToC.ValueType

/-!
Variables in scope: a stack of frames, each with the variables declared in it.
A name means its innermost declaration.
-/
namespace ImpToC

/-- Frames from the innermost outwards, the newest variable of each first. -/
structure Scopes where
  frames : List (List (String × ValueType))
  deriving DecidableEq, Repr

namespace Scopes

def empty : Scopes := ⟨[]⟩

def push (s : Scopes) : Scopes := ⟨[] :: s.frames⟩

/-- Leave the innermost frame; without one there is nothing to leave. -/
def pop (s : Scopes) : Scopes := ⟨s.frames.tail⟩

/-- Declare a variable in the innermost frame, which is made if there is none.
A name is declared only once in a frame. -/
def declare? (s : Scopes) (name : String) (type : ValueType) : Option Scopes :=
  match s.frames with
  | [] => some ⟨[[(name, type)]]⟩
  | frame :: outer =>
    match frame.lookup name with
    | some _ => none
    | none => some ⟨((name, type) :: frame) :: outer⟩

def lookup? (s : Scopes) (name : String) : Option ValueType :=
  s.frames.findSome? fun frame => frame.lookup name

end Scopes

end ImpToC
