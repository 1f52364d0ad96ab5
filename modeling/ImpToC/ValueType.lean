/-!
The two types of values: integers and strings.
-/
namespace ImpToC

inductive ValueType where
  | int | str
  deriving DecidableEq, Repr

/-- How messages name a type. -/
def ValueType.describe : ValueType → String
  | int => "int"
  | str => "string"

end ImpToC
