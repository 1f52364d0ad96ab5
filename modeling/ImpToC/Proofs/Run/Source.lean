import ImpToC.Proofs.LiteralValue
import ImpToC.Proofs.Parts
import ImpToC.Proofs.Run.Action

/-!
A reference interpreter for programs. Names mean their innermost variable, and a
function sees only its parameters, which are integers, and what it declares itself. A
call counts as an integer too. Each statement takes one step, and so does each call of a
function of the program and the end of a body that is reached without a return; an
external declaration is no step.
-/
namespace ImpToC

open Run

namespace Expr

def isCall : Expr → Bool
  | .call _ _ _ => true
  | _ => false

/-- What is done with a value that is put to use. One that a call gave has to be an integer. -/
def settle (e : Expr) (v : Value) : Action Value :=
  if e.isCall ∧ v.type = .str then stop .stuck else pure v

/-- Strings are joined and compared by their contents; integers know all six
operators. There is nothing else. -/
def operate (platform : Platform) (op : Operator) : Value → Value → Action Value
  | .int a, .int b => integers platform op a b
  | .str a, .str b =>
    match op with
    | .add => pure (.str (a ++ b))
    | .eq => pure (.ofBool (a = b))
    | .ne => pure (.ofBool (a ≠ b))
    | _ => stop .stuck
  | _, _ => stop .stuck

mutual

def eval (platform : Platform) (call : Caller) (env : Frames Value) : Expr → Action Value
  | .ident name _ =>
    match env.lookup? name with
    | some v => pure v
    | none => stop .stuck
  | .int value _ => pure (.int value)
  | .str text _ => pure (.str (C.Literal.value text.toList))
  | .binary op left right _ => do
    let a ← left.eval platform call env
    let b ← right.eval platform call env
    let a ← left.settle a
    let b ← right.settle b
    operate platform op a b
  | .call (.ident name _) args _ => do
    let values ← evalAll platform call env args
    call name values
  | .call _ _ _ | .func _ _ _ => stop .stuck

def evalAll (platform : Platform) (call : Caller) (env : Frames Value) :
    List Expr → Action (List Value)
  | [] => pure []
  | e :: es => do
    let v ← e.eval platform call env
    let vs ← evalAll platform call env es
    pure (v :: vs)

end

/-- The value of an expression that is put to use. -/
def result (platform : Platform) (call : Caller) (env : Frames Value) (e : Expr) : Action Value := do
  let v ← e.eval platform call env
  e.settle v

end Expr

namespace Stmt

mutual

/-- `shows` tells whether the value of a bare expression is printed, as it is in
the main body at any depth and nowhere else. -/
def exec (platform : Platform) (call : Caller) (shows : Bool) (env : Frames Value) :
    Stmt → Action (Flow Value)
  | .declare name none _ => do
    tick
    let v ← unset platform name
    pure (.next (env.declare name v))
  | .declare name (some value) _ => do
    tick
    let v ← value.result platform call env
    pure (.next (env.declare name v))
  | .assign name value _ => do
    tick
    let v ← value.result platform call env
    match env.assign? name v with
    | some after => pure (.next after)
    | none => pure (.next (env.declare name v))
  | .print value _ => do
    tick
    let v ← value.result platform call env
    writeLine v
    pure (.next env)
  | .branch condition consequence alternative _ => do
    tick
    let v ← condition.eval platform call env
    if v.isTrue then execBlock platform call shows env consequence
    else execOption platform call shows env alternative
  | .block body => do
    tick
    execBlock platform call shows env body
  | .foreign _ _ => pure (.next env)
  | .ret none _ => do
    tick
    pure (.returned (.int 0))
  | .ret (some value) _ => do
    tick
    let v ← value.result platform call env
    pure (.returned v)
  | .func _ _ _ _ => stop .stuck
  | .expr value _ => do
    tick
    if shows then
      let v ← value.result platform call env
      writeLine v
      pure (.next env)
    else
      let _ ← value.eval platform call env
      pure (.next env)

/-- The statements of a block have a frame of their own, which ends with them. -/
def execBlock (platform : Platform) (call : Caller) (shows : Bool) (env : Frames Value) :
    Block → Action (Flow Value)
  | .mk body _ => do
    let flow ← execAll platform call shows ([] :: env) body
    pure flow.close

def execOption (platform : Platform) (call : Caller) (shows : Bool) (env : Frames Value) :
    Option Block → Action (Flow Value)
  | none => pure (.next env)
  | some body => execBlock platform call shows env body

/-- Statements one after the other, up to a return. -/
def execAll (platform : Platform) (call : Caller) (shows : Bool) (env : Frames Value) :
    List Stmt → Action (Flow Value)
  | [] => pure (.next env)
  | s :: ss => do
    match ← s.exec platform call shows env with
    | .next after => execAll platform call shows after ss
    | .returned v => pure (.returned v)

end

/-- A whole body with its parameters. Without a return it gives zero, and that is
a step as a return is. -/
def execBody (platform : Platform) (call : Caller) (shows : Bool) (params : List (String × Value))
    (body : List Stmt) : Action Value := do
  let env : Frames Value := params.foldl (fun env (name, v) => env.declare name v) [[]]
  match ← execAll platform call shows env body with
  | .returned v => pure v
  | .next _ => do
    tick
    pure (.int 0)

end Stmt

namespace Program

/-- The function of this name, with its parameters. Functions without a name
cannot be called. -/
def function? (p : Program) (name : String) : Option (List String × List Stmt) :=
  p.statements.findSome? fun
    | .func other params body _ => if other = name then some (params, body.statements) else none
    | _ => none

/-- What the program does when it is started. -/
def execMain (platform : Platform) (call : Caller) (p : Program) : Action Value :=
  Stmt.execBody platform call true [] p.mainStatements

/-- What the program can call. The main body has a name too, and takes no notice of
arguments. -/
def bodies (platform : Platform) (p : Program) : Bodies := fun call name args =>
  match p.function? name with
  | some (params, body) =>
    if params.length = args.length ∧ ∀ v ∈ args, v.type = .int then
      some (Stmt.execBody platform call false (params.zip args) body)
    else some (stop .stuck)
  | none => if name = "main" then some (p.execMain platform call) else none

/-- All that can be seen of a program in so many steps. -/
def run (platform : Platform) (bound : Nat) (p : Program) : Outcome :=
  (p.execMain platform (calling platform (p.bodies platform) bound)).outcome bound

end Program

end ImpToC
