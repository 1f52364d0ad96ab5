import ImpToC.Token

/-!
What can be wrong with a sequence of tokens, and how it is told.
-/
namespace ImpToC

/-- What a token was expected to be. -/
inductive Expected where
  | kind (k : Token.Kind)
  | initializerOrEnd
  | separatorOr (closing : Token.Kind)
  deriving DecidableEq, Repr

namespace Expected

def describe : Expected → String
  | kind k => k.describe
  | initializerOrEnd => "'=' or ';' after variable name"
  | separatorOr closing => "',' or " ++ closing.describe

end Expected

inductive Diagnostic.Cause where
  | unexpected (expected : Expected) (got : Token)
  | noOperand (kind : Token.Kind)
  | illegalToken (literal : String)
  | integerTooLarge (literal : String)
  | externalParameters
  | unclosedBlock (opened : Location)
  deriving DecidableEq, Repr

namespace Diagnostic.Cause

def message : Cause → String
  | unexpected expected got => "expected " ++ expected.describe ++ ", got " ++ got.describe
  | noOperand kind => "no prefix parse rule for " ++ kind.describe
  | illegalToken literal => "illegal token '" ++ literal ++ "'"
  | integerTooLarge literal => "could not parse \"" ++ literal ++ "\" as integer"
  | externalParameters => "extern declarations with parameters are not supported"
  | unclosedBlock opened =>
    r"expected '}' to close block opened at " ++ opened.describe ++ ", got end of file"

end Diagnostic.Cause

/-- A cause at the token that shows it. -/
structure Diagnostic where
  cause : Diagnostic.Cause
  location : Location
  deriving DecidableEq, Repr

namespace Diagnostic

def message (d : Diagnostic) : String := d.cause.message

def describe (d : Diagnostic) : String :=
  "Parse error at " ++ d.location.describe ++ ": " ++ d.message

/-- Several diagnostics, a line each. -/
def describeAll (ds : List Diagnostic) : String := "\n".intercalate (ds.map describe)

/-- A token stands where something else has to. -/
def unexpected (expected : Expected) (got : Token) : Diagnostic :=
  ⟨.unexpected expected got, got.location⟩

end Diagnostic

end ImpToC
