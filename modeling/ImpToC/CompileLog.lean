import ImpToC.Compile
import ImpToC.Host.Basic
import ImpToC.Tree.Outline

/-!
What is told to the log while a source is compiled: every fault of form where it
is met, the program as a listing, every function that is taken out, and how much
C there is in the end.
-/
namespace ImpToC

namespace Generate

/-- A function is told before it is seen whether its name is taken. -/
def registration (table : FunctionTable) (d : FunctionDef) (others : FunctionTable → List LogEntry) :
    List LogEntry :=
  .trace [("name", d.name), ("params", toString d.params.length)] "registering function" ::
    match register table d with
    | .ok table => others table
    | .error _ => []

/-- The functions that are taken out, up to the first fault. -/
def registrations (table : FunctionTable) (anonymous : Nat) : List Stmt → List LogEntry
  | [] => []
  | .func name params body l :: ss =>
    if C.isReserved name then []
    else registration table ⟨name, params, body, l⟩ fun table => registrations table anonymous ss
  | .expr (.func params body l) _ :: ss =>
    registration table ⟨anonymousName anonymous, params, body, l⟩ fun table =>
      registrations table (anonymous + 1) ss
  | _ :: ss => registrations table anonymous ss

end Generate

def Program.generateLog (p : Program) : List LogEntry :=
  Generate.registrations .empty 0 p.statements ++
    match Generate.extract .empty 0 p.statements with
    | .error _ => []
    | .ok (table, body) =>
      [.debug [("functions", toString table.size), ("main_statements", toString body.length)]
        "extracted functions"]

def compileLog (source : String) : List LogEntry :=
  match Program.read source with
  | (p, []) =>
    [.debug [("statements", toString p.statements.length)] "parsed program",
      .debug [] ("AST:\n" ++ p.outline)] ++ p.generateLog ++
      match (Generator.new.run p).1 with
      | .ok text => [.debug [("bytes", toString text.utf8ByteSize)] "generated C source"]
      | .error _ => []
  | (_, diagnostics) =>
    diagnostics.map (fun d => .trace [("err", d.describe)] "recording parse error") ++
      [.debug [("errors", toString diagnostics.length)] "parsing failed"]

/-- Every token of a source, the one at the end included. -/
def tokenLog (source : String) : List LogEntry :=
  (Lexer.ofText source).tokenize.1.map fun t =>
    .debug [("location", t.location.describe)] ("token " ++ t.describe)

end ImpToC
