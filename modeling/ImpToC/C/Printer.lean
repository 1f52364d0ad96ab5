import ImpToC.C.Code

/-!
The text of emitted C: a line a statement, four spaces a level. An operation
that is an operand stands in parentheses, so the text groups as the tree does
whatever the precedences are.
-/
namespace ImpToC.C

/-- One line of text, `depth` levels in. -/
def line (depth : Nat) (text : String) : String :=
  String.join (List.replicate depth "    ") ++ text ++ "\n"

/-- The headers and the function that joins two strings. -/
def preamble : String :=
  "#include <stdio.h>\n#include <string.h>\n#include <stdlib.h>\n\n" ++
  line 0 r"char* concat_strings(const char* a, const char* b) {" ++
  line 1 "char* result = malloc(strlen(a) + strlen(b) + 1);" ++
  line 1 "strcpy(result, a);" ++
  line 1 "strcat(result, b);" ++
  line 1 "return result;" ++
  line 0 r"}"

def typeName : ValueType → String
  | .int => "int"
  | .str => "char*"

/-- The conversion that prints a value of the type. -/
def conversion : ValueType → String
  | .int => "%d"
  | .str => "%s"

namespace Expr

/-- Operations go into parentheses when they are operands. -/
def isOperation : Expr → Bool
  | binary _ _ _ | compare _ _ _ => true
  | _ => false

def parenthesise (e : Expr) (text : String) : String :=
  if e.isOperation then "(" ++ text ++ ")" else text

mutual

def render : Expr → String
  | var name => name
  | int value => toString value
  | str body => "\"" ++ body ++ "\""
  | binary op left right =>
    left.parenthesise left.render ++ " " ++ op.symbol ++ " " ++ right.parenthesise right.render
  | compare op left right =>
    "(strcmp(" ++ left.render ++ ", " ++ right.render ++ ") " ++ op.symbol ++ " 0)"
  | concat left right => "concat_strings(" ++ left.render ++ ", " ++ right.render ++ ")"
  | call function args => function ++ "(" ++ ", ".intercalate (renderAll args) ++ ")"

def renderAll : List Expr → List String
  | [] => []
  | e :: es => e.render :: renderAll es

end

end Expr

namespace Stmt

mutual

def render (depth : Nat) : Stmt → String
  | declare type name none => line depth (typeName type ++ " " ++ name ++ ";")
  | declare type name (some value) =>
    line depth (typeName type ++ " " ++ name ++ " = " ++ value.render ++ ";")
  | assign name value => line depth (name ++ " = " ++ value.render ++ ";")
  | print type value => line depth ("printf(\"" ++ conversion type ++ "\\n\", " ++ value.render ++ ");")
  | branch condition consequence alternative =>
    line depth ("if (" ++ condition.render ++ r") {") ++ renderAll (depth + 1) consequence ++
      renderAlternative depth alternative ++ line depth r"}"
  | block body => line depth r"{" ++ renderAll (depth + 1) body ++ line depth r"}"
  | foreign name => line depth ("// extern " ++ name ++ " declared (handled by C headers)")
  | ret value => line depth ("return " ++ value.render ++ ";")
  | eval value => line depth (value.render ++ ";")

def renderAll (depth : Nat) : List Stmt → String
  | [] => ""
  | s :: ss => s.render depth ++ renderAll depth ss

def renderAlternative (depth : Nat) : Option (List Stmt) → String
  | none => ""
  | some body => line depth r"} else {" ++ renderAll (depth + 1) body

end

end Stmt

namespace Function

def signature (f : Function) : String :=
  "int " ++ f.name ++ "(" ++ ", ".intercalate (f.params.map ("int " ++ ·)) ++ ")"

def prototype (f : Function) : String := line 0 (f.signature ++ ";")

/-- A definition, after an empty line. -/
def render (f : Function) : String :=
  "\n" ++ line 0 (f.signature ++ r" {") ++ Stmt.renderAll 1 f.body ++ line 0 r"}"

end Function

namespace Code

/-- The prototypes of all functions, after an empty line if there are any. -/
def prototypes (c : Code) : String :=
  if c.functions.isEmpty then "" else "\n" ++ String.join (c.functions.map Function.prototype)

def render (c : Code) : String :=
  preamble ++ c.prototypes ++ String.join (c.functions.map Function.render) ++
    "\n" ++ line 0 r"int main() {" ++ Stmt.renderAll 1 c.main ++ line 0 r"}"

end Code

end ImpToC.C
