import ImpToC.Generate
import ImpToC.Parse

/-!
From source text to the text of C. No C is made as long as the source has
faults of form.
-/
namespace ImpToC

inductive CompileError where
  | malformed (diagnostics : List Diagnostic)
  | noCode (error : GenError)
  deriving DecidableEq, Repr

def CompileError.message : CompileError → String
  | malformed ds => toString ds.length ++ " syntax error(s):\n" ++ Diagnostic.describeAll ds
  | noCode error => "code generation failed: " ++ error.message

def compile (source : String) : Except CompileError String :=
  match Program.parse source with
  | .error diagnostics => .error (.malformed diagnostics)
  | .ok p =>
    match (Generator.new.run p).1 with
    | .ok text => .ok text
    | .error error => .error (.noCode error)

end ImpToC
