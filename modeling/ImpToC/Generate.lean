import ImpToC.C.Printer
import ImpToC.Generate.Stmt

/-!
C for whole programs. Functions at the top level, named or not, are taken out
and defined in order; all other statements form the main body. The first fault
ends it.
-/
namespace ImpToC

namespace Generate

def register (table : FunctionTable) (d : FunctionDef) : Except GenError FunctionTable :=
  match table.insert d with
  | .ok table => .ok table
  | .error d => .error ⟨.duplicateFunction d.name, d.location⟩

/-- The name of a function without one; names that are read hold no digits. -/
def anonymousName (index : Nat) : String := "func_" ++ toString index

/-- Part the statements into functions and the main body, both in order.
Functions without a name count from `anonymous`. -/
def extract (table : FunctionTable) (anonymous : Nat) :
    List Stmt → Except GenError (FunctionTable × List Stmt)
  | [] => .ok (table, [])
  | .func name params body l :: ss =>
    if C.isReserved name then .error ⟨.reservedName name, l⟩
    else do
      let table ← register table ⟨name, params, body, l⟩
      extract table anonymous ss
  | .expr (.func params body l) _ :: ss => do
    let table ← register table ⟨anonymousName anonymous, params, body, l⟩
    extract table (anonymous + 1) ss
  | s :: ss => do
    let (table, rest) ← extract table anonymous ss
    return (table, s :: rest)

/-- Parameters are integers, and the place of each is that of the function. -/
def parameters (scopes : Scopes) (l : Location) : List String → Except Failure Scopes
  | [] => .ok scopes
  | name :: names =>
    match declare scopes name .int l with
    | .ok after => parameters after l names
    | .error error => .error ⟨error, scopes⟩

def endsInReturn (body : List Stmt) : Bool :=
  match body.getLast? with
  | some (.ret _ _) => true
  | _ => false

/-- A function whose last statement is no return returns zero. -/
def function (table : FunctionTable) (d : FunctionDef) : Except Failure C.Function := do
  let scopes ← parameters Scopes.empty.push d.location d.params
  let (code, _) ← statements ⟨table, true⟩ scopes d.body.statements
  let ending := if endsInReturn d.body.statements then [] else [C.Stmt.ret (.int 0)]
  return ⟨d.name, d.params, code ++ ending⟩

def functions (table : FunctionTable) : List FunctionDef → Except Failure (List C.Function)
  | [] => .ok []
  | d :: ds => do
    let code ← function table d
    return code :: (← functions table ds)

def mainBody (table : FunctionTable) (body : List Stmt) : Except Failure (List C.Stmt) := do
  let (code, _) ← statements ⟨table, false⟩ Scopes.empty.push body
  return code ++ [.ret (.int 0)]

end Generate

/-- The C of a program, or its first fault. -/
def Program.generate (p : Program) : Except Generate.Failure C.Code :=
  match Generate.extract .empty 0 p.statements with
  | .error error => .error ⟨error, .empty⟩
  | .ok (table, body) => do
    let functions ← Generate.functions table table.definitions
    let main ← Generate.mainBody table body
    return ⟨functions, main⟩

/-- What a generator remembers between programs: the scopes that were open when
the last one failed. -/
structure Generator where
  scopes : Scopes
  deriving DecidableEq, Repr

namespace Generator

def new : Generator := ⟨.empty⟩

/-- The text for a program. What was remembered plays no part in it. -/
def run (_ : Generator) (p : Program) : Except GenError String × Generator :=
  match p.generate with
  | .ok code => (.ok code.render, new)
  | .error failure => (.error failure.error, ⟨failure.scopes⟩)

/-- The type of an expression, as far as the remembered scopes tell. -/
def infer (g : Generator) (e : Expr) : ValueType := e.type g.scopes

end Generator

end ImpToC
