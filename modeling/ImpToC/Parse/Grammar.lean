import ImpToC.Tree
import ImpToC.Parse.Pieces
import ImpToC.Parse.Recovery

/-!
The grammar: expressions by precedence climbing, statements by their first
token, blocks with recovery inside. `final` is the token at the end of the
text and `depth` the number of blocks open.
-/
namespace ImpToC.Parse

/-- How tightly the next token binds as an operator. -/
def levelOf (kind : Token.Kind) : Level :=
  if kind = .symbol .leftParen then .call
  else
    match Operator.ofKind? kind with
    | some op => op.level
    | none => .lowest

mutual

/-- An expression all of whose operators outside parentheses bind more tightly
than `level`. -/
def expression (final : Token) (depth : Nat) (level : Level) (input : List Token) : Scan Expr input :=
  (operand final depth input).andThen fun left last rest _ => climb final depth level left last rest
termination_by 8 * input.length + 2
decreasing_by all_goals grind

def operand (final : Token) (depth : Nat) (input : List Token) : Scan Expr input :=
  match input with
  | [] => .fail ⟨.noOperand final.kind, final.location⟩ _
  | t :: rest =>
    match t.kind with
    | .ident => .done (.ident t.literal t.location) t rest
    | .int =>
      match integer? t.literal with
      | some value => .done (.int value t.location) t rest
      | none => .fail ⟨.integerTooLarge t.literal, t.location⟩ _
    | .string => .done (.str t.literal t.location) t rest
    | .symbol .leftParen =>
      ((expression final depth .lowest rest).behind t).andThen fun inner last rest _ =>
      (expect final (.symbol .rightParen) last rest).map fun _ => inner
    | .keyword .func =>
      (header final t rest).andThen fun params brace rest _ =>
      (block final depth brace rest).map fun body => .func params body t.location
    | .illegal => .fail ⟨.illegalToken t.literal, t.location⟩ _
    | kind => .fail ⟨.noOperand kind, t.location⟩ _
termination_by 8 * input.length + 1
decreasing_by all_goals grind

/-- Take in operators and calls after `left` as long as they bind more tightly
than `level`. -/
def climb (final : Token) (depth : Nat) (level : Level) (left : Expr) (last : Token)
    (rest : List Token) : Scan Expr (last :: rest) :=
  match rest with
  | [] => .done left last []
  | t :: rest =>
    if level < levelOf t.kind then
      match Operator.ofKind? t.kind with
      | some op =>
        (((expression final depth op.level rest).behind t).andThen fun right last rest _ =>
          climb final depth level (.binary op left right t.location) last rest).behind last
      | none =>
        ((delimited final t rest fun input _ => expression final depth .lowest input).andThen
          fun args last rest _ => climb final depth level (.call left args t.location) last rest).behind last
    else .done left last (t :: rest)
termination_by 8 * rest.length
decreasing_by all_goals grind

/-- The block that `brace` opens. -/
def block (final : Token) (depth : Nat) (brace : Token) (rest : List Token) : Scan Block (brace :: rest) :=
  ((statements final (depth + 1) brace.location rest).behind brace).map fun body =>
    .mk body brace.location
termination_by 8 * rest.length + 6
decreasing_by all_goals grind

/-- Statements up to the brace that ends the block opened at `opened`. -/
def statements (final : Token) (depth : Nat) (opened : Location) (input : List Token) :
    Scan (List Stmt) input :=
  match input with
  | [] => .fail ⟨.unclosedBlock opened, final.location⟩ _
  | t :: rest =>
    if closing : t.kind = .symbol .rightBrace then .done [] t rest
    else
      (statement final depth (t :: rest)).orElse
        (fun s last rest _ => ((statements final depth opened rest).map (s :: ·)).behind last)
        (fun resume ending =>
          have := recover_of_suffix_length_lt depth t rest resume ending (fun h => closing h.1)
          (statements final depth opened (recover depth resume)).within
            ((recover_suffix depth resume).trans ending))
termination_by 8 * input.length + 5
decreasing_by all_goals grind

def statement (final : Token) (depth : Nat) (input : List Token) : Scan Stmt input :=
  match input with
  | [] => .fail ⟨.noOperand final.kind, final.location⟩ _
  | t :: rest =>
    match t.kind with
    | .keyword .var =>
      (expect final .ident t rest).andThen fun name last rest _ =>
        match rest with
        | [] => .fail (.unexpected .initializerOrEnd final) _
        | next :: rest =>
          if next.kind = .symbol .semicolon then
            (Scan.done (.declare name.literal none t.location) next rest).behind last
          else if next.kind = .symbol .assign then
            (((expression final depth .lowest rest).behind next).andThen fun value last rest _ =>
              optionalSemicolon (.declare name.literal (some value) t.location) last rest).behind last
          else .fail (.unexpected .initializerOrEnd next) _
    | .keyword .print =>
      (expect final (.symbol .leftParen) t rest).andThen fun _ last rest _ =>
      ((expression final depth .lowest rest).behind last).andThen fun value last rest _ =>
      (expect final (.symbol .rightParen) last rest).andThen fun _ last rest _ =>
        optionalSemicolon (.print value t.location) last rest
    | .keyword .cond =>
      ((expression final depth .lowest rest).behind t).andThen fun condition last rest _ =>
      (expect final (.symbol .leftBrace) last rest).andThen fun _ brace rest _ =>
      (block final depth brace rest).andThen fun consequence last rest _ =>
        match rest with
        | [] => .done (.branch condition consequence none t.location) last []
        | next :: rest =>
          if next.kind = .ident ∧ next.literal = "else" then
            ((expect final (.symbol .leftBrace) next rest).andThen fun _ brace rest _ =>
              (block final depth brace rest).map fun alternative =>
                .branch condition consequence (some alternative) t.location).behind last
          else .done (.branch condition consequence none t.location) last (next :: rest)
    | .keyword .foreign =>
      (expect final .ident t rest).andThen fun name last rest _ =>
        match rest with
        | [] => .fail ⟨.externalParameters, final.location⟩ _
        | next :: rest =>
          if next.kind = .symbol .semicolon then
            (Scan.done (.foreign name.literal t.location) next rest).behind last
          else .fail ⟨.externalParameters, next.location⟩ _
    | .keyword .ret =>
      match rest with
      | [] => .done (.ret none t.location) t []
      | next :: rest =>
        if next.kind = .symbol .semicolon then (Scan.done (.ret none t.location) next rest).behind t
        else if next.kind = .symbol .rightBrace then .done (.ret none t.location) t (next :: rest)
        else
          ((expression final depth .lowest (next :: rest)).behind t).andThen fun value last rest _ =>
            optionalSemicolon (.ret (some value) t.location) last rest
    | .symbol .leftBrace => (block final depth t rest).map .block
    | _ =>
      match rest with
      | [] => bareExpression final depth t []
      | next :: rest =>
        if t.kind = .keyword .func ∧ next.kind = .ident then
          ((header final next rest).andThen fun params brace rest _ =>
            (block final depth brace rest).map fun body =>
              .func next.literal params body t.location).behind t
        else if t.kind = .ident ∧ next.kind = .symbol .assign then
          (((expression final depth .lowest rest).behind next).andThen fun value last rest _ =>
            optionalSemicolon (.assign t.literal value t.location) last rest).behind t
        else bareExpression final depth t (next :: rest)
termination_by 8 * input.length + 4
decreasing_by all_goals grind

/-- An expression for its own sake. -/
def bareExpression (final : Token) (depth : Nat) (t : Token) (rest : List Token) : Scan Stmt (t :: rest) :=
  (expression final depth .lowest (t :: rest)).andThen fun value last rest _ =>
    optionalSemicolon (.expr value t.location) last rest
termination_by 8 * (rest.length + 1) + 3
decreasing_by all_goals grind

end

end ImpToC.Parse
