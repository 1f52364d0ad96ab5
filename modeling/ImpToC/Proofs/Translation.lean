import ImpToC.Generate
import ImpToC.Proofs.C.Grammar
import ImpToC.Proofs.WellFormed

/-!
The C tree of a program, node by node. It has a prototype and a definition for each
function and then the main function; operations keep their operator and their
operands, except that strings are joined and compared by functions; and what is
printed says its type. Nothing is checked here and no text is written: of a program
that is not well formed the tree means nothing.
-/
namespace ImpToC

namespace C.Grammar

/-- Two strings, one after the other: one literal if both are literals. -/
def Expr.join : Expr → Expr → Expr
  | .str a, .str b => .str (a ++ b)
  | left, right => .call (.ident "concat_strings") [left, right]

/-- Whether the contents of two strings are the same, or are not. -/
def Expr.compare (op : Operator) (left right : Expr) : Expr :=
  .binary op (.call (.ident "strcmp") [left, right]) (.int 0)

/-- An operation on two operands of a type. -/
def Expr.operation (type : ValueType) (op : Operator) (left right : Expr) : Expr :=
  match type, op with
  | .int, op => .binary op left right
  | .str, .add => left.join right
  | .str, op => .compare op left right

def format : ValueType → List Char
  | .int => ['%', 'd', '\\', 'n']
  | .str => ['%', 's', '\\', 'n']

def Stmt.print (type : ValueType) (value : Expr) : Stmt :=
  .expr (.call (.ident "printf") [.str (format type), value])

end C.Grammar

mutual

/-- A function literal has no tree of its own; the empty name stands in for it. -/
def Expr.translate (scopes : Scopes) : Expr → C.Grammar.Expr
  | .ident name _ => .ident name
  | .int value _ => .int value
  | .str text _ => .str (C.Literal.encode text.toList)
  | .binary op left right _ =>
    .operation (left.type scopes) op (left.translate scopes) (right.translate scopes)
  | .call callee args _ => .call (callee.translate scopes) (Expr.translateAll scopes args)
  | .func _ _ _ => .ident ""

def Expr.translateAll (scopes : Scopes) : List Expr → List C.Grammar.Expr
  | [] => []
  | e :: es => e.translate scopes :: Expr.translateAll scopes es

end

/-- A variable that comes into being with a value has the type of the value. -/
def Expr.translateNew (scopes : Scopes) (name : String) (value : Expr) : C.Grammar.Stmt :=
  .declare (value.type scopes) name (some (value.translate scopes))

mutual

/-- The statements for one statement, none or one, and the variables after it. -/
def Stmt.translate (inFunction : Bool) (scopes : Scopes) : Stmt → List C.Grammar.Stmt × Scopes
  | .declare name none _ => ([.declare .int name none], scopes.bind name .int)
  | .declare name (some value) _ =>
    ([value.translateNew scopes name], scopes.bind name (value.type scopes))
  | .assign name value _ =>
    match scopes.lookup? name with
    | none => ([value.translateNew scopes name], scopes.bind name (value.type scopes))
    | some _ => ([.assign name (value.translate scopes)], scopes)
  | .print value _ => ([.print (value.type scopes) (value.translate scopes)], scopes)
  | .branch condition consequence alternative _ =>
    ([.branch (condition.translate scopes) (consequence.translate inFunction scopes)
      (Block.translateOption inFunction scopes alternative)], scopes)
  | .block body => ([.block (body.translate inFunction scopes)], scopes)
  | .foreign _ _ => ([], scopes)
  | .ret none _ => ([.ret (.int 0)], scopes)
  | .ret (some value) _ => ([.ret (value.translate scopes)], scopes)
  | .func _ _ _ _ => ([], scopes)
  | .expr value _ =>
    ([if inFunction then .expr (value.translate scopes)
      else .print (value.type scopes) (value.translate scopes)], scopes)

def Block.translate (inFunction : Bool) (scopes : Scopes) : Block → List C.Grammar.Stmt
  | .mk body _ => Stmt.translateAll inFunction scopes.push body

def Block.translateOption (inFunction : Bool) (scopes : Scopes) :
    Option Block → Option (List C.Grammar.Stmt)
  | none => none
  | some body => some (body.translate inFunction scopes)

/-- Statements in order, each with the variables that those before it leave. -/
def Stmt.translateAll (inFunction : Bool) (scopes : Scopes) : List Stmt → List C.Grammar.Stmt
  | [] => []
  | s :: ss =>
    (s.translate inFunction scopes).1 ++
      Stmt.translateAll inFunction (s.translate inFunction scopes).2 ss

end

def Stmt.isReturn : Stmt → Bool
  | .ret _ _ => true
  | _ => false

namespace FunctionDef

/-- The body of a function; without a return at its end it returns zero. -/
def translateBody (d : FunctionDef) : List C.Grammar.Stmt :=
  let scopes := d.params.foldl (fun scopes name => scopes.bind name .int) Scopes.empty.push
  Stmt.translateAll true scopes d.body.statements ++
    if d.body.statements.getLast?.any Stmt.isReturn then [] else [.ret (.int 0)]

end FunctionDef

/-- The tree of a program: all prototypes, all definitions, and the main function. -/
def Program.translation (p : Program) : List C.Grammar.Item :=
  p.definitions.map (fun d => .prototype d.name d.params) ++
    p.definitions.map (fun d => .definition d.name d.params d.translateBody) ++
    [.definition "main" []
      (Stmt.translateAll false Scopes.empty.push p.mainStatements ++ [.ret (.int 0)])]

end ImpToC
