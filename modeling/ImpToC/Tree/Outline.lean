import ImpToC.Tree

/-!
A program as an indented listing: one line a node, children under their
parent, two spaces a level. Places are left out.
-/
namespace ImpToC

/-- A line of the listing, and how many levels it stands in. -/
structure Outline.Line where
  depth : Nat
  label : String
  deriving DecidableEq, Repr

namespace Outline

def commaSeparated (names : List String) : String := ", ".intercalate names

mutual

def ofExpr (depth : Nat) : Expr → List Line
  | .ident name _ => [⟨depth, "Identifier: " ++ name⟩]
  | .int value _ => [⟨depth, "Integer: " ++ toString value⟩]
  | .str text _ => [⟨depth, "String: \"" ++ text ++ "\""⟩]
  | .binary op left right _ =>
    ⟨depth, "Infix: (" ++ op.symbol ++ ")"⟩ :: (ofExpr (depth + 1) left ++ ofExpr (depth + 1) right)
  | .call callee args _ => ⟨depth, "Call:"⟩ :: (ofExpr (depth + 1) callee ++ ofExprs (depth + 1) args)
  | .func params body _ =>
    ⟨depth, "FunctionLiteral: (" ++ commaSeparated params ++ ")"⟩ :: ofBlock "Body" (depth + 1) body

def ofExprs (depth : Nat) : List Expr → List Line
  | [] => []
  | e :: es => ofExpr depth e ++ ofExprs depth es

def ofOptional (depth : Nat) : Option Expr → List Line
  | none => []
  | some e => ofExpr depth e

/-- A block under the name of its role. -/
def ofBlock (role : String) (depth : Nat) : Block → List Line
  | .mk statements _ => ⟨depth, role ++ ":"⟩ :: ofStmts (depth + 1) statements

def ofAlternative (depth : Nat) : Option Block → List Line
  | none => []
  | some body => ofBlock "Else" depth body

def ofStmt (depth : Nat) : Stmt → List Line
  | .declare name value _ => ⟨depth, "Let: " ++ name⟩ :: ofOptional (depth + 1) value
  | .assign name value _ => ⟨depth, "Assign: " ++ name⟩ :: ofExpr (depth + 1) value
  | .print value _ => ⟨depth, "Print:"⟩ :: ofExpr (depth + 1) value
  | .branch condition consequence alternative _ =>
    ⟨depth, "If:"⟩ :: (ofExpr (depth + 1) condition ++ ofBlock "Then" (depth + 1) consequence ++
      ofAlternative (depth + 1) alternative)
  | .block body => ofBlock "Block" depth body
  | .foreign name _ => [⟨depth, "Extern: " ++ name⟩]
  | .ret value _ => ⟨depth, "Return:"⟩ :: ofOptional (depth + 1) value
  | .func name params body _ =>
    ⟨depth, "Function: " ++ name ++ "(" ++ commaSeparated params ++ ")"⟩ ::
      ofBlock "Body" (depth + 1) body
  | .expr value _ => ⟨depth, "Expression:"⟩ :: ofExpr (depth + 1) value

def ofStmts (depth : Nat) : List Stmt → List Line
  | [] => []
  | s :: ss => ofStmt depth s ++ ofStmts depth ss

end

def Line.render (line : Line) : String :=
  String.join (List.replicate line.depth "  ") ++ line.label ++ "\n"

end Outline

/-- The whole listing, under the line that names it. -/
def Program.outline (p : Program) : String :=
  "Program:\n" ++ String.join ((Outline.ofStmts 1 p.statements).map Outline.Line.render)

end ImpToC
