import ImpToC.Operator

/-!
Programs as trees. Every node keeps the place of the token that names it: an
operation that of its operator, a call that of its opening parenthesis, a block
that of its opening brace, all else that of its first token.
-/
namespace ImpToC

mutual

inductive Expr where
  | ident (name : String) (location : Location)
  | int (value : Int) (location : Location)
  | str (text : String) (location : Location)
  | binary (op : Operator) (left right : Expr) (location : Location)
  | call (callee : Expr) (args : List Expr) (location : Location)
  | func (params : List String) (body : Block) (location : Location)
  deriving Repr

inductive Stmt where
  | declare (name : String) (value : Option Expr) (location : Location)
  | assign (name : String) (value : Expr) (location : Location)
  | print (value : Expr) (location : Location)
  | branch (condition : Expr) (consequence : Block) (alternative : Option Block) (location : Location)
  | block (body : Block)
  | foreign (name : String) (location : Location)
  | ret (value : Option Expr) (location : Location)
  | func (name : String) (params : List String) (body : Block) (location : Location)
  | expr (value : Expr) (location : Location)
  deriving Repr

/-- Statements between braces. -/
inductive Block where
  | mk (statements : List Stmt) (location : Location)
  deriving Repr

end

namespace Expr

def location : Expr → Location
  | ident _ l | int _ l | str _ l | binary _ _ _ l | call _ _ l | func _ _ l => l

end Expr

namespace Block

def statements : Block → List Stmt
  | mk statements _ => statements

def location : Block → Location
  | mk _ location => location

end Block

namespace Stmt

def location : Stmt → Location
  | declare _ _ l | assign _ _ l | print _ l | branch _ _ _ l | foreign _ l | ret _ l
  | func _ _ _ l | expr _ l => l
  | block body => body.location

end Stmt

structure Program where
  statements : List Stmt
  deriving Repr

end ImpToC
