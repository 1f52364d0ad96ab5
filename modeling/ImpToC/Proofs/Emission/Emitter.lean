import ImpToC.Generate

/-!
The generator as a machine that writes. It appends to one text and changes its state as
it goes: lines are indented by a counter, scopes are opened and closed by hand, and
functions join a table. A fault ends the writing at once. Where a scope is left on the way
out it is left there, and where it is not, it stays open. What the machine writes is the
C of the generator; that is proved elsewhere.
-/
namespace ImpToC

/-- What is kept while C is written: the text so far, how deep its lines stand, the
variables in scope, the functions of the program, how many of these had no name, and
whether the body of one is being written. -/
structure Emitter where
  output : String
  indent : Nat
  symbols : Scopes
  functions : FunctionTable
  anonymous : Nat
  inFunction : Bool

namespace Emitter

/-- A fault ends an action, and what was done before it is kept. -/
abbrev Action (α : Type) := ExceptT GenError (StateM Emitter) α

def new : Emitter := ⟨"", 0, .empty, .empty, 0, false⟩

/-- What holds for the body that is being written. -/
def context (e : Emitter) : Generate.Context := ⟨e.functions, e.inFunction⟩

/-- A result that was found without changing anything. -/
def found {α : Type} (result : Except GenError α) : Action α := fun e => (result, e)

def write (text : String) : Action Unit := modify fun e => { e with output := e.output ++ text }

/-- One line, as deep as lines stand. -/
def line (text : String) : Action Unit := do
  write (C.line (← get).indent text)

def expression (value : Expr) : Action String := do
  let e ← get
  let code ← found (value.lower e.functions e.symbols)
  return code.render

def typeOf (value : Expr) : Action ValueType := do
  return value.type (← get).symbols

def declare (name : String) (type : ValueType) (l : Location) : Action Unit := do
  let after ← found (Generate.declare (← get).symbols name type l)
  modify fun e => { e with symbols := after }

def emitDeclaration (name : String) (value : Option Expr) (l : Location) : Action Unit :=
  if C.isReserved name then throw ⟨.reservedName name, l⟩
  else
    match value with
    | none => do
      declare name .int l
      line ("int " ++ name ++ ";")
    | some value =>
      match value.mention? name with
      | some used => throw ⟨.undefinedVariable name, used⟩
      | none => do
        let type ← typeOf value
        let code ← expression value
        declare name type l
        line (C.typeName type ++ " " ++ name ++ " = " ++ code ++ ";")

def emitAssignment (name : String) (value : Expr) (l : Location) : Action Unit := do
  match (← get).symbols.lookup? name with
  | none => emitDeclaration name (some value) l
  | some expected =>
    let type ← typeOf value
    if type = expected then
      let code ← expression value
      line (name ++ " = " ++ code ++ ";")
    else throw ⟨.typeMismatch (.assignment name) expected type, l⟩

def emitOutput (value : Expr) : Action Unit := do
  let type ← typeOf value
  let code ← expression value
  line ("printf(\"" ++ C.conversion type ++ "\\n\", " ++ code ++ ");")

def emitReturn (value : Option Expr) (l : Location) : Action Unit :=
  match value with
  | none => line "return 0;"
  | some value => do
    match ← typeOf value with
    | .str => throw ⟨.typeMismatch .returnValue .int .str, l⟩
    | .int =>
      let code ← expression value
      line ("return " ++ code ++ ";")

/-- Whether the value is printed depends on where the emitter is. -/
def emitBare (value : Expr) : Action Unit := do
  if (← get).inFunction then
    let code ← expression value
    line (code ++ ";")
  else emitOutput value

/-- One level deeper and in a scope of its own, which is left even if there is a fault. -/
def inScope (body : Action Unit) : Action Unit := fun e =>
  let (result, after) := body { e with indent := e.indent + 1, symbols := e.symbols.push }
  (result, { after with indent := after.indent - 1, symbols := after.symbols.pop })

mutual

def emit : Stmt → Action Unit
  | .declare name value l => emitDeclaration name value l
  | .assign name value l => emitAssignment name value l
  | .print value _ => emitOutput value
  | .branch condition consequence alternative _ => do
    let code ← expression condition
    line ("if (" ++ code ++ r") {")
    emitBlock consequence
    emitAlternative alternative
    line r"}"
  | .block body => do
    line r"{"
    emitBlock body
    line r"}"
  | .foreign name _ => line ("// extern " ++ name ++ " declared (handled by C headers)")
  | .ret value l => emitReturn value l
  | .func name _ _ l => throw ⟨.nestedFunction name, l⟩
  | .expr value _ => emitBare value

def emitBlock : Block → Action Unit
  | .mk body _ => inScope (emitAll body)

def emitAlternative : Option Block → Action Unit
  | none => pure ()
  | some body => do
    line r"} else {"
    emitBlock body

def emitAll : List Stmt → Action Unit
  | [] => pure ()
  | s :: ss => do
    emit s
    emitAll ss

end

def reset : Action Unit := set new

/-- A function joins the table, unless there is one of its name. -/
def register (d : FunctionDef) : Action Unit := do
  let table ← found (Generate.register (← get).functions d)
  modify fun e => { e with functions := table }

/-- Put the functions of statements into the table and hand back the others. -/
def extractFunctions : List Stmt → Action (List Stmt)
  | [] => pure []
  | .func name params body l :: ss =>
    if C.isReserved name then throw ⟨.reservedName name, l⟩
    else do
      register ⟨name, params, body, l⟩
      extractFunctions ss
  | .expr (.func params body l) _ :: ss => do
    let index := (← get).anonymous
    modify fun e => { e with anonymous := index + 1 }
    register ⟨Generate.anonymousName index, params, body, l⟩
    extractFunctions ss
  | s :: ss => do
    let rest ← extractFunctions ss
    return s :: rest

def signature (d : FunctionDef) : String :=
  "int " ++ d.name ++ "(" ++ ", ".intercalate (d.params.map ("int " ++ ·)) ++ ")"

/-- One line for each function, in the order of the table. -/
def emitPrototypes : List FunctionDef → Action Unit
  | [] => pure ()
  | d :: ds => do
    line (signature d ++ ";")
    emitPrototypes ds

def forwardDeclarations : Action Unit := do
  let table := (← get).functions
  if table.isEmpty then pure ()
  else
    write "\n"
    emitPrototypes table.definitions

def declareParameters (l : Location) : List String → Action Unit
  | [] => pure ()
  | name :: names => do
    declare name .int l
    declareParameters l names

/-- Open the scope of a function or of the main body. A fault leaves it open. -/
def enterBody : Action Unit := modify fun e => { e with indent := 1, symbols := e.symbols.push }

def leaveBody : Action Unit := modify fun e => { e with indent := 0, symbols := e.symbols.pop }

/-- The parameters are declared in the scope of the body. A body that does not end in a return gets
one. -/
def emitBody (d : FunctionDef) : Action Unit := do
  declareParameters d.location d.params
  emitAll d.body.statements
  if Generate.endsInReturn d.body.statements then pure () else line "return 0;"

def emitFunction (d : FunctionDef) : Action Unit := do
  write "\n"
  line (signature d ++ r" {")
  modify fun e => { e with inFunction := true }
  enterBody
  emitBody d
  leaveBody
  modify fun e => { e with inFunction := false }
  write (C.line 0 r"}")

def emitFunctions : List FunctionDef → Action Unit
  | [] => pure ()
  | d :: ds => do
    emitFunction d
    emitFunctions ds

def emitMainBody (body : List Stmt) : Action Unit := do
  emitAll body
  line "return 0;"

/-- The main function, after an empty line. -/
def emitMain (body : List Stmt) : Action Unit := do
  write ("\n" ++ C.line 0 r"int main() {")
  enterBody
  emitMainBody body
  leaveBody
  write (C.line 0 r"}")

/-- The functions of the table and a main body. -/
def emitProgram (main : List Stmt) : Action Unit := do
  write C.preamble
  forwardDeclarations
  emitFunctions (← get).functions.definitions
  emitMain main

/-- The C of a program. The text is handed over, and what was left from before is not
looked at. -/
def generate (p : Program) : Action String := do
  reset
  let main ← extractFunctions p.statements
  emitProgram main
  modifyGet fun e => (e.output, { e with output := "" })

end Emitter

end ImpToC
