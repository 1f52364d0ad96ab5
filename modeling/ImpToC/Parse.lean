import ImpToC.Token.Lexer
import ImpToC.Parse.Grammar

/-!
From text to program. A statement that cannot be read is left out and told by a
diagnostic, and reading goes on after it, so one pass tells every fault.
-/
namespace ImpToC

namespace Parse

/-- The statements of a token list that can be read, and the diagnostics of the
others in the order in which they arise. -/
def program (final : Token) (input : List Token) : List Stmt × List Diagnostic :=
  match input with
  | [] => ([], [])
  | t :: rest =>
    match statement final 0 (t :: rest) with
    | ⟨⟨recorded, .parsed s _ rest⟩, ending⟩ =>
      have := Scan.rest_length_lt ending
      let (ss, ds) := program final rest
      (s :: ss, recorded ++ ds)
    | ⟨⟨recorded, .failed error resume⟩, ending⟩ =>
      have := recover_of_suffix_length_lt 0 t rest resume ending (by simp)
      let (ss, ds) := program final (recover 0 resume)
      (ss, recorded ++ error :: ds)
termination_by input.length
decreasing_by all_goals grind

end Parse

namespace Program

/-- The statements that can be read, with every diagnostic. -/
def read (source : String) : Program × List Diagnostic :=
  let tokens := Tokens.ofText source
  let (statements, diagnostics) := Parse.program tokens.final tokens.list
  (⟨statements⟩, diagnostics)

/-- The program, if there is nothing to complain about. -/
def parse (source : String) : Except (List Diagnostic) Program :=
  match read source with
  | (p, []) => .ok p
  | (_, diagnostics) => .error diagnostics

end Program

end ImpToC
