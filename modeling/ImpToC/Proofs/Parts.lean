import ImpToC.FunctionTable

/-!
The parts of a program that later statements speak of. Its leaves are all that it
spells out: names, callees, integers and strings, wherever they stand in the tree.
Its definitions are the functions at the top level, and what is left is the main
body.
-/
namespace ImpToC

/-- A callee that is a name counts twice: as a name, and as one that is called. -/
inductive Leaf where
  | name (name : String)
  | callee (name : String)
  | int (value : Int)
  | str (text : String)
  deriving DecidableEq, Repr

/-- The name that a call gives, if it gives one. -/
def Expr.calleeName? : Expr → Option String
  | .ident name _ => some name
  | _ => none

mutual

/-- What an expression spells out, from left to right. What is called counts as a callee and as a name. -/
def Expr.leaves : Expr → List Leaf
  | .ident name _ => [.name name]
  | .int value _ => [.int value]
  | .str text _ => [.str text]
  | .binary _ left right _ => left.leaves ++ right.leaves
  | .call callee args _ => callee.calleeName?.toList.map .callee ++ callee.leaves ++ Expr.leavesOfAll args
  | .func params body _ => params.map .name ++ body.leaves

def Expr.leavesOfAll : List Expr → List Leaf
  | [] => []
  | e :: es => e.leaves ++ Expr.leavesOfAll es

def Expr.leavesOfOption : Option Expr → List Leaf
  | none => []
  | some e => e.leaves

/-- What a statement spells out, with everything in its blocks. -/
def Stmt.leaves : Stmt → List Leaf
  | .declare name value _ => .name name :: Expr.leavesOfOption value
  | .assign name value _ => .name name :: value.leaves
  | .print value _ => value.leaves
  | .branch condition consequence alternative _ =>
    condition.leaves ++ consequence.leaves ++ Block.leavesOfOption alternative
  | .block body => body.leaves
  | .foreign name _ => [.name name]
  | .ret value _ => Expr.leavesOfOption value
  | .func name params body _ => .name name :: (params.map .name ++ body.leaves)
  | .expr value _ => value.leaves

def Stmt.leavesOfAll : List Stmt → List Leaf
  | [] => []
  | s :: ss => s.leaves ++ Stmt.leavesOfAll ss

def Block.leaves : Block → List Leaf
  | .mk body _ => Stmt.leavesOfAll body

def Block.leavesOfOption : Option Block → List Leaf
  | none => []
  | some body => body.leaves

end

def Program.leaves (p : Program) : List Leaf := Stmt.leavesOfAll p.statements

theorem Expr.mem_leavesOfAll {leaf : Leaf} {es : List Expr} :
    leaf ∈ Expr.leavesOfAll es ↔ ∃ e ∈ es, leaf ∈ e.leaves := by
  induction es with
  | nil => simp [leavesOfAll]
  | cons e es ih => simp [leavesOfAll, ih]

theorem Stmt.mem_leavesOfAll {leaf : Leaf} {ss : List Stmt} :
    leaf ∈ Stmt.leavesOfAll ss ↔ ∃ s ∈ ss, leaf ∈ s.leaves := by
  induction ss with
  | nil => simp [leavesOfAll]
  | cons s ss ih => simp [leavesOfAll, ih]

theorem Block.leaves_of_mem {leaf : Leaf} {body : Block} {s : Stmt} (member : s ∈ body.statements)
    (inside : leaf ∈ s.leaves) : leaf ∈ body.leaves := by
  obtain ⟨ss, l⟩ := body
  exact Stmt.mem_leavesOfAll.mpr ⟨s, member, inside⟩

namespace Stmt

/-- A function at the top level is a definition, with or without a name. -/
def isDefinition : Stmt → Bool
  | func _ _ _ _ | expr (.func _ _ _) _ => true
  | _ => false

/-- The functions that statements define. The ones without a name are called
`func_0`, `func_1` and so on, counted from `index`. -/
def definitions (index : Nat) : List Stmt → List FunctionDef
  | [] => []
  | func name params body l :: ss => ⟨name, params, body, l⟩ :: definitions index ss
  | expr (.func params body l) _ :: ss =>
    ⟨"func_" ++ toString index, params, body, l⟩ :: definitions (index + 1) ss
  | _ :: ss => definitions index ss

end Stmt

namespace Program

def definitions (p : Program) : List FunctionDef := Stmt.definitions 0 p.statements

/-- All that is no definition, in order. -/
def mainStatements (p : Program) : List Stmt := p.statements.filter fun s => !s.isDefinition

end Program

end ImpToC
