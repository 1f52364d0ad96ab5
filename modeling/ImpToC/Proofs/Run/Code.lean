import Mathlib.Algebra.Ring.Int.Defs
import ImpToC.C.Code
import ImpToC.Proofs.LiteralValue
import ImpToC.Proofs.Run.Action

/-!
Variables in C and the value of code. A variable has a type; a string ends at its first null
character. Whatever C leaves undefined is `stuck`: a variable without a value, an operand of
another type than its operator takes, a call of a variable.
-/
namespace ImpToC.C

open Run

/-- A variable has no value before its initial value is known. -/
structure Variable where
  type : ValueType
  value : Option Value
  deriving DecidableEq, Repr

abbrev Env : Type := Frames Variable

/-- What a library function sees of a string. -/
def cut (contents : List Char) : List Char := contents.takeWhile (· != '\x00')

/-- The value of a variable. -/
def read (env : Env) (name : String) : Action Value :=
  match env.lookup? name with
  | some ⟨_, some v⟩ => pure v
  | _ => stop .stuck

/-- The value of a number, which has to fit. -/
def number (value : Int) : Action Value :=
  if -2 ^ 31 ≤ value ∧ value < 2 ^ 31 then pure (.int value) else stop .stuck

/-- The value of a string literal with this body. -/
def literal (body : List Char) : Action Value :=
  match Literal.decode? body with
  | some contents => pure (.str (cut contents))
  | none => stop .stuck

/-- Operators are for integers only. -/
def operate (platform : Platform) (op : Operator) : Value → Value → Action Value
  | .int a, .int b => integers platform op a b
  | _, _ => stop .stuck

/-- A name that is called must not be a variable. -/
def callable (env : Env) (name : String) : Action Unit :=
  if env.lookup? name = none then pure () else stop .stuck

namespace Expr

mutual

def eval (platform : Platform) (call : Caller) (env : Env) : Expr → Action Value
  | .var name => read env name
  | .int value => number value
  | .str body => literal body.toList
  | .binary op left right => do
    let a ← left.eval platform call env
    let b ← right.eval platform call env
    operate platform op a b
  | .compare op left right => do
    let a ← left.eval platform call env
    let b ← right.eval platform call env
    match a, b with
    | .str a, .str b => integers platform op (strcmp a b) 0
    | _, _ => stop .stuck
  | .concat left right => do
    let a ← left.eval platform call env
    let b ← right.eval platform call env
    match a, b with
    | .str a, .str b => pure (.str (a ++ b))
    | _, _ => stop .stuck
  | .call function args => do
    callable env function
    let values ← evalAll platform call env args
    call function values

def evalAll (platform : Platform) (call : Caller) (env : Env) : List Expr → Action (List Value)
  | [] => pure []
  | e :: es => do
    let v ← e.eval platform call env
    let vs ← evalAll platform call env es
    pure (v :: vs)

end

end Expr

end ImpToC.C
