import ImpToC.Token.Lexeme

/-!
Reading tokens off a text, one at a time or all at once. Reading never fails:
each token before the end takes the gap in front of it and at least one
character, and at the end the same token is given again and again.
-/
namespace ImpToC

/-- What is left of a text and where it stands. The stream of tokens is
`finished` once it has handed out the token at the end. -/
structure Lexer where
  location : Location
  rest : List Char
  finished : Bool
  deriving DecidableEq, Repr

/-- All tokens of a text: those before the end, and the one at the end. -/
structure Tokens where
  list : List Token
  final : Token
  deriving DecidableEq, Repr

namespace Tokens

def toList (ts : Tokens) : List Token := ts.list ++ [ts.final]

/-- The tokens of a text that begins at `l`. -/
def scan (l : Location) (cs : List Char) : Tokens :=
  match gap : Gap.skip l cs with
  | (place, text) =>
    match found : Lexeme.read? text with
    | none => ⟨[], .atEnd place⟩
    | some (x, rest) =>
      have : rest.length < cs.length := by
        have := Gap.skip_length_le l cs
        have := Lexeme.read?_length_lt found
        simp_all only
        omega
      let tail := scan (place.after x.text) rest
      ⟨⟨x.kind, String.ofList x.literal, place⟩ :: tail.list, tail.final⟩
termination_by cs.length

def ofText (text : String) : Tokens := scan .start text.toList

end Tokens

namespace Lexer

def ofText (text : String) : Lexer := ⟨.start, text.toList, false⟩

/-- The next token, past the gap. Reading on at the end stays there. -/
def nextToken (lexer : Lexer) : Token × Lexer :=
  match Gap.skip lexer.location lexer.rest with
  | (place, text) =>
    match Lexeme.read? text with
    | none => (.atEnd place, ⟨place, [], lexer.finished⟩)
    | some (x, rest) =>
      (⟨x.kind, String.ofList x.literal, place⟩, ⟨place.after x.text, rest, lexer.finished⟩)

/-- The next token of the stream, which stops after the token at the end. -/
def next? (lexer : Lexer) : Option Token × Lexer :=
  if lexer.finished then (none, lexer)
  else
    match lexer.nextToken with
    | (t, after) => (some t, ⟨after.location, after.rest, t.kind == .endOfFile⟩)

/-- Whatever is left of the stream. -/
def tokenize (lexer : Lexer) : List Token × Lexer :=
  if lexer.finished then ([], lexer)
  else
    let tokens := Tokens.scan lexer.location lexer.rest
    (tokens.toList, ⟨tokens.final.location, [], true⟩)

end Lexer

end ImpToC
