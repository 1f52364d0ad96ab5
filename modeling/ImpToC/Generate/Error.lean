import ImpToC.Operator
import ImpToC.ValueType

/-!
Programs that can be read but have no C: what is wrong with them, and where.
-/
namespace ImpToC

/-- Where a value of another type was needed. -/
inductive TypeContext where
  | assignment (name : String)
  | returnValue
  | argument (index : Nat) (function : String)
  deriving DecidableEq, Repr

def TypeContext.describe : TypeContext → String
  | assignment name => "assignment to '" ++ name ++ "'"
  | returnValue => "return value"
  | argument index function => "argument " ++ toString index ++ " of '" ++ function ++ "'"

inductive GenError.Cause where
  | undefinedVariable (name : String)
  | redeclaration (name : String)
  | reservedName (name : String)
  | duplicateFunction (name : String)
  | nestedFunction (name : String)
  | functionLiteralValue
  | unsupportedCallee (callee : String)
  | argumentCountMismatch (function : String) (expected got : Nat)
  | typeMismatch (context : TypeContext) (expected found : ValueType)
  | integerOutOfRange (value : Int)
  | invalidStringOperation (op : Operator)
  deriving DecidableEq, Repr

def GenError.Cause.message : GenError.Cause → String
  | undefinedVariable name => "undefined variable '" ++ name ++ "'"
  | redeclaration name => "'" ++ name ++ "' is already declared in this scope"
  | reservedName name => "'" ++ name ++ "' is a reserved name and cannot be declared"
  | duplicateFunction name => "function '" ++ name ++ "' is defined more than once"
  | nestedFunction name => "function '" ++ name ++ "' must be declared at the top level"
  | functionLiteralValue => "function literals cannot be used as values"
  | unsupportedCallee callee => "'" ++ callee ++ "' is not callable"
  | argumentCountMismatch function expected got =>
    "function '" ++ function ++ "' expects " ++ toString expected ++ " argument(s), got " ++ toString got
  | typeMismatch context expected found =>
    "type mismatch in " ++ context.describe ++ ": expected " ++ expected.describe ++ ", found " ++
      found.describe
  | integerOutOfRange value => "integer literal " ++ toString value ++ " does not fit in a C int"
  | invalidStringOperation op => "operator '" ++ op.symbol ++ "' cannot be applied to these operand types"

/-- A fault and the place it is told at. -/
structure GenError where
  cause : GenError.Cause
  location : Location
  deriving DecidableEq, Repr

def GenError.message (e : GenError) : String :=
  e.cause.message ++ " at " ++ e.location.describe

end ImpToC
