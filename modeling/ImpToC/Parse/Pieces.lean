import ImpToC.Parse.Scan

/-!
The parts of the grammar that hold no expression and no statement: an expected
token, an optional semicolon, lists between parentheses, parameters, and
integers.
-/
namespace ImpToC.Parse

variable {α : Type}

/-- The next token has to be of this kind. `final` is the token at the end of
the text, met when no other is left. -/
def expect (final : Token) (kind : Token.Kind) (last : Token) (rest : List Token) :
    Scan Token (last :: rest) :=
  match rest with
  | [] => .fail (.unexpected (.kind kind) final) _
  | t :: rest =>
    if t.kind = kind then (Scan.done t t rest).behind last
    else .fail (.unexpected (.kind kind) t) _

/-- A semicolon after a statement belongs to it. -/
def optionalSemicolon (value : α) (last : Token) (rest : List Token) : Scan α (last :: rest) :=
  match rest with
  | [] => .done value last []
  | t :: rest =>
    if t.kind = .symbol .semicolon then (Scan.done value t rest).behind last
    else .done value last (t :: rest)

/-- One or more items with commas between them, up to the closing parenthesis. -/
def items (final : Token) (bound : Nat)
    (item : (input : List Token) → input.length < bound → Scan α input)
    (input : List Token) (small : input.length < bound) : Scan (List α) input :=
  (item input small).andThen fun value last rest shorter =>
    match rest with
    | [] => .fail (.unexpected (.separatorOr (.symbol .rightParen)) final) _
    | t :: rest =>
      if t.kind = .symbol .comma then
        (((items final bound item rest
          (by simp only [List.length_cons] at shorter; omega)).map (value :: ·)).behind t).behind last
      else if t.kind = .symbol .rightParen then (Scan.done [value] t rest).behind last
      else .fail (.unexpected (.separatorOr (.symbol .rightParen)) t) _
termination_by input.length
decreasing_by simp only [List.length_cons] at shorter; omega

/-- The list after an opening parenthesis, which may be empty. -/
def delimited (final : Token) (opening : Token) (rest : List Token)
    (item : (input : List Token) → input.length < rest.length + 1 → Scan α input) :
    Scan (List α) (opening :: rest) :=
  match rest with
  | [] => (items final _ item [] (Nat.lt_succ_self _)).behind opening
  | t :: rest =>
    if t.kind = .symbol .rightParen then (Scan.done [] t rest).behind opening
    else (items final _ item (t :: rest) (Nat.lt_succ_self _)).behind opening

def parameter (final : Token) (input : List Token) : Scan String input :=
  match input with
  | [] => .fail (.unexpected (.kind .ident) final) _
  | t :: rest =>
    if t.kind = .ident then .done t.literal t rest
    else .fail (.unexpected (.kind .ident) t) _

/-- The parameters of a function and the brace that opens its body. -/
def header (final : Token) (last : Token) (rest : List Token) : Scan (List String) (last :: rest) :=
  (expect final (.symbol .leftParen) last rest).andThen fun _ opening rest _ =>
  (delimited final opening rest fun input _ => parameter final input).andThen fun params last rest _ =>
  (expect final (.symbol .leftBrace) last rest).map fun _ => params

/-- The value of a run of digits, as far as it fits a signed word of 64 bits. -/
def integer? (digits : String) : Option Int :=
  let value := digits.toList.foldl (fun n c => 10 * n + (c.toNat - '0'.toNat)) 0
  if value ≤ 9223372036854775807 then some (value : Int) else none

end ImpToC.Parse
