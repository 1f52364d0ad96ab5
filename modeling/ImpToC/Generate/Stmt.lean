import ImpToC.C.Reserved
import ImpToC.Generate.Expr

/-!
C for statements. A statement gives its C and the scopes after it: only
declarations change them, and only in the innermost frame. Blocks and branches
have frames of their own, which end with them.
-/
namespace ImpToC

/-- What holds for a whole body: the functions of the program, and whether the
body is that of a function rather than the main one. -/
structure Generate.Context where
  functions : FunctionTable
  inFunction : Bool

/-- A fault, with the scopes as they were before the statement or the parameter
that has it. -/
structure Generate.Failure where
  error : GenError
  scopes : Scopes
  deriving DecidableEq, Repr

namespace Generate

def declare (scopes : Scopes) (name : String) (type : ValueType) (l : Location) :
    Except GenError Scopes :=
  if C.isReserved name then .error ⟨.reservedName name, l⟩
  else
    match scopes.declare? name type with
    | some after => .ok after
    | none => .error ⟨.redeclaration name, l⟩

/-- A new variable. In C its name is in scope within its own initial value, so
the value may not use it. -/
def declaration (functions : FunctionTable) (scopes : Scopes) (name : String) (value : Option Expr)
    (l : Location) : Except GenError (C.Stmt × Scopes) :=
  if C.isReserved name then .error ⟨.reservedName name, l⟩
  else
    match value with
    | none => do
      let after ← declare scopes name .int l
      return (.declare .int name none, after)
    | some value =>
      match value.mention? name with
      | some used => .error ⟨.undefinedVariable name, used⟩
      | none => do
        let code ← value.lower functions scopes
        let after ← declare scopes name (value.type scopes) l
        return (.declare (value.type scopes) name (some code), after)

/-- The first assignment to a name declares it; later ones keep its type. -/
def assignment (functions : FunctionTable) (scopes : Scopes) (name : String) (value : Expr)
    (l : Location) : Except GenError (C.Stmt × Scopes) :=
  match scopes.lookup? name with
  | none => declaration functions scopes name (some value) l
  | some expected =>
    if value.type scopes = expected then do
      let code ← value.lower functions scopes
      return (.assign name code, scopes)
    else .error ⟨.typeMismatch (.assignment name) expected (value.type scopes), l⟩

def output (functions : FunctionTable) (scopes : Scopes) (value : Expr) : Except GenError C.Stmt := do
  return .print (value.type scopes) (← value.lower functions scopes)

/-- Without a value, zero is returned. -/
def returning (functions : FunctionTable) (scopes : Scopes) (value : Option Expr) (l : Location) :
    Except GenError C.Stmt :=
  match value with
  | none => .ok (.ret (.int 0))
  | some value =>
    match value.type scopes with
    | .int => do return .ret (← value.lower functions scopes)
    | .str => .error ⟨.typeMismatch .returnValue .int .str, l⟩

/-- A bare expression is printed in the main body and only evaluated in a function. -/
def bare (context : Context) (scopes : Scopes) (value : Expr) : Except GenError C.Stmt :=
  if context.inFunction then do return .eval (← value.lower context.functions scopes)
  else output context.functions scopes value

mutual

def statement (context : Context) (scopes : Scopes) : Stmt → Except GenError (C.Stmt × Scopes)
  | .declare name value l => declaration context.functions scopes name value l
  | .assign name value l => assignment context.functions scopes name value l
  | .print value _ => do return (← output context.functions scopes value, scopes)
  | .branch condition consequence alternative _ => do
    let code ← condition.lower context.functions scopes
    let yes ← block context scopes consequence
    let no ← optionalBlock context scopes alternative
    return (.branch code yes no, scopes)
  | .block body => do return (.block (← block context scopes body), scopes)
  | .foreign name _ => .ok (.foreign name, scopes)
  | .ret value l => do return (← returning context.functions scopes value l, scopes)
  | .func name _ _ l => .error ⟨.nestedFunction name, l⟩
  | .expr value _ => do return (← bare context scopes value, scopes)

/-- Statements in a frame of their own. -/
def block (context : Context) (scopes : Scopes) : Block → Except GenError (List C.Stmt)
  | .mk body _ =>
    match statements context scopes.push body with
    | .ok (code, _) => .ok code
    | .error failure => .error failure.error

def optionalBlock (context : Context) (scopes : Scopes) :
    Option Block → Except GenError (Option (List C.Stmt))
  | none => .ok none
  | some body => do return some (← block context scopes body)

/-- Statements one after the other, each in the scopes that those before it leave. -/
def statements (context : Context) (scopes : Scopes) :
    List Stmt → Except Failure (List C.Stmt × Scopes)
  | [] => .ok ([], scopes)
  | s :: ss =>
    match statement context scopes s with
    | .error error => .error ⟨error, scopes⟩
    | .ok (code, scopes) => do
      let (rest, scopes) ← statements context scopes ss
      return (code :: rest, scopes)

end

end Generate

end ImpToC
