import ImpToC.Proofs.Rendering.Fronts

/-!
The parser finds whatever the grammar derives, and complains about nothing on the way.
Expressions are read by climbing: after the tokens of an expression the parser stands
where it would stand had it just taken the expression in as the left operand of what
follows. There is one lemma for each rule of the grammar, and one induction.
-/
namespace ImpToC.Rendering

open Parse

/-- The parser finds a phrase in tokens of its shapes. After an expression it goes on as
after a left operand. -/
def Phrase.IsParsed : Phrase → List Shape → Prop
  | .expr level e, shapes => ∀ (final : Token) (depth : Nat) (outer : Level) (ts rest : List Token),
      Placed shapes ts → outer.rank < level → binding rest ≤ level →
      ∃ q last, q.unplaced = e.unplaced ∧
        (expression final depth outer (ts ++ rest)).val = (climb final depth outer q last rest).val
  | .args es, shapes => ∀ (final closing : Token) (depth : Nat) (ts rest : List Token),
      Placed shapes ts → ts ≠ [] → closing.kind = .symbol .rightParen →
      ∃ qs, Expr.unplacedAll qs = Expr.unplacedAll es ∧ ∀ bound small,
        (items final bound (fun input _ => expression final depth .lowest input)
          (ts ++ closing :: rest) small).Reads qs closing rest
  | .stmt ending s, shapes => ∀ (final : Token) (depth : Nat) (ts rest : List Token),
      Placed shapes ts → Follows ending rest →
      ∃ q last, q.unplaced = s.unplaced ∧ (statement final depth (ts ++ rest)).Reads q last rest
  | .stmts ss, shapes => ∀ (final closing : Token) (depth : Nat) (opened : Location) (ts rest : List Token),
      Placed shapes ts → closing.kind = .symbol .rightBrace →
      ∃ qs, Stmt.unplacedAll qs = Stmt.unplacedAll ss ∧
        (statements final depth opened (ts ++ closing :: rest)).Reads qs closing rest

section Expressions

variable {e left right callee : Expr} {es : List Expr} {l : Location} {shapes ls rs : List Shape}

/-- An operand of one token. -/
theorem isParsed_leaf {s : Shape} {level : Nat}
    (read : ∀ final depth m rest, ∃ q : Expr, q.unplaced = e.unplaced ∧
      (operand final depth (s.token m :: rest)).Reads q (s.token m) rest) :
    (Phrase.expr level e).IsParsed [s] := by
  intro final depth outer ts rest placed _ _
  obtain ⟨m, tail, rfl, nothing⟩ := placed.cons
  obtain rfl := nothing.nil
  obtain ⟨q, same, found⟩ := read final depth m rest
  exact ⟨q, s.token m, same, expression_eq_climb found⟩

/-- An expression in front of whatever binds nothing is read up to there. -/
theorem Phrase.IsParsed.whole (parsed : (Phrase.expr 1 e).IsParsed shapes) (final : Token) (depth : Nat)
    {ts rest : List Token} (placed : Placed shapes ts) (weak : binding rest = 0) :
    ∃ q last, q.unplaced = e.unplaced ∧
      (expression final depth .lowest (ts ++ rest)).Reads q last rest := by
  obtain ⟨q, last, same, found⟩ := parsed final depth .lowest ts rest placed Nat.zero_lt_one (by omega)
  exact ⟨q, last, same, found.trans (climb_stops (by rw [weak]; exact Nat.le_refl 0))⟩

theorem isParsed_paren (inside : (Phrase.expr 1 e).IsParsed shapes) :
    (Phrase.expr 4 e).IsParsed (.symbol .leftParen :: (shapes ++ [.symbol .rightParen])) := by
  intro final depth outer ts rest placed _ _
  obtain ⟨m, tail, rfl, placed'⟩ := placed.cons
  obtain ⟨inner, back, rfl, within, closes⟩ := placed'.append
  obtain ⟨m', back', rfl, nothing⟩ := closes.cons
  obtain rfl := nothing.nil
  have weak : binding (Shape.token (.symbol .rightParen) m' :: rest) = 0 := rfl
  obtain ⟨q, last, same, found⟩ := inside.whole final depth within weak
  refine ⟨q, Shape.token (.symbol .rightParen) m', same, expression_eq_climb ?_⟩
  rw [List.cons_append, List.append_assoc, operand.eq_def]
  exact found.behind.andThen fun _ => (expect_reads rfl).map fun _ => q

theorem arguments_read {args : List Expr} (given : (Phrase.args args).IsParsed shapes)
    (opens : (Phrase.args args).Opens shapes) (final opening closing : Token) (depth : Nat)
    {ts : List Token} (rest : List Token) (placed : Placed shapes ts)
    (ends : closing.kind = .symbol .rightParen) :
    ∃ qs, Expr.unplacedAll qs = Expr.unplacedAll args ∧
      (delimited final opening (ts ++ closing :: rest) fun input _ =>
        expression final depth .lowest input).Reads qs closing rest := by
  cases args with
  | nil =>
    obtain rfl : shapes = [] := opens
    obtain rfl := placed.nil
    exact ⟨[], rfl, delimited_reads ends (fun _ => rfl) nofun fun some => absurd rfl some⟩
  | cons e es =>
    have some : ts ≠ [] := by
      rintro rfl
      cases placed
      cases opens
    obtain ⟨qs, same, listed⟩ := given final closing depth ts rest placed some ends
    refine ⟨qs, same, delimited_reads ends (fun none => absurd none some) (fun t first => ?_)
      fun _ bound small => listed bound small⟩
    obtain ⟨tail, rfl⟩ := List.head?_eq_some_iff.mp first
    cases placed
    exact Shape.kind_ne_of_opensStatement (Opening.opensStatement opens) nofun nofun

theorem isParsed_call {args : List Expr} {fs ts : List Shape} (function : (Phrase.expr 4 callee).IsParsed fs)
    (given : (Phrase.args args).IsParsed ts) (opens : (Phrase.args args).Opens ts) :
    (Phrase.expr 4 (.call callee args l)).IsParsed
      (fs ++ .symbol .leftParen :: (ts ++ [.symbol .rightParen])) := by
  intro final depth outer input rest placed tight _
  obtain ⟨front, back, rfl, called, placed'⟩ := placed.append
  obtain ⟨m, tail, rfl, placed''⟩ := placed'.cons
  obtain ⟨inner, back', rfl, within, closes⟩ := placed''.append
  obtain ⟨m', nothing, rfl, none⟩ := closes.cons
  obtain rfl := none.nil
  obtain ⟨q, last, same, found⟩ := function final depth outer front
    (Shape.token (.symbol .leftParen) m :: (inner ++ Shape.token (.symbol .rightParen) m' :: rest))
    called tight (Nat.le_refl 4)
  obtain ⟨qs, same', listed⟩ := arguments_read given opens final (Shape.token (.symbol .leftParen) m)
    (Shape.token (.symbol .rightParen) m') depth rest within rfl
  refine ⟨.call q qs m, Shape.token (.symbol .rightParen) m',
    by rw [Expr.unplaced, Expr.unplaced, same, same'], ?_⟩
  rw [List.append_assoc, List.cons_append, List.append_assoc]
  exact found.trans (climb_call rfl tight listed)

theorem isParsed_last (only : (Phrase.expr 1 e).IsParsed shapes) : (Phrase.args [e]).IsParsed shapes := by
  intro final closing depth ts rest placed _ ends
  have weak : binding (closing :: rest) = 0 := by
    rw [binding, ends]
    rfl
  obtain ⟨q, last, same, found⟩ := only.whole final depth placed weak
  exact ⟨[q], by rw [Expr.unplacedAll, same]; rfl, fun bound small => items_last found ends⟩

theorem isParsed_more {e' : Expr} {us : List Shape} (first : (Phrase.expr 1 e).IsParsed shapes)
    (others : (Phrase.args (e' :: es)).IsParsed us) (opens : (Phrase.args (e' :: es)).Opens us) :
    (Phrase.args (e :: e' :: es)).IsParsed (shapes ++ .symbol .comma :: us) := by
  intro final closing depth ts rest placed _ ends
  obtain ⟨front, back, rfl, before, placed'⟩ := placed.append
  obtain ⟨m, after, rfl, behind⟩ := placed'.cons
  have weak : binding (Shape.token (.symbol .comma) m :: (after ++ closing :: rest)) = 0 := rfl
  obtain ⟨q, last, same, found⟩ := first.whole final depth before weak
  have some : after ≠ [] := by
    rintro rfl
    cases behind
    cases opens
  obtain ⟨qs, same', listed⟩ := others final closing depth after rest behind some ends
  refine ⟨q :: qs, by rw [Expr.unplacedAll, Expr.unplacedAll, same, same'], fun bound => ?_⟩
  rw [List.append_assoc, List.cons_append]
  exact fun _ => items_more found rfl fun small => listed bound small

/-- The block between braces. -/
theorem block_reads {body : List Stmt} (inside : (Phrase.stmts body).IsParsed shapes) (final : Token)
    (depth : Nat) {ts : List Token} (rest : List Token) (placed : Placed (braced shapes) ts) :
    ∃ m inner q last, ts = Shape.token (.symbol .leftBrace) m :: inner ∧
      q.unplaced = (Block.mk body l).unplaced ∧
      (block final depth (Shape.token (.symbol .leftBrace) m) (inner ++ rest)).Reads q last rest := by
  obtain ⟨m, tail, rfl, placed'⟩ := placed.cons
  obtain ⟨inner, back, rfl, within, closes⟩ := placed'.append
  obtain ⟨m', nothing, rfl, none⟩ := closes.cons
  obtain rfl := none.nil
  obtain ⟨qs, same, found⟩ := inside final (Shape.token (.symbol .rightBrace) m') (depth + 1) m
    inner rest within rfl
  refine ⟨m, _, .mk qs m, Shape.token (.symbol .rightBrace) m', rfl, ?_, ?_⟩
  · rw [Block.unplaced, Block.unplaced, same]
  · rw [block, List.append_assoc]
    exact found.behind.map fun body => Block.mk body m

theorem isParsed_lambda {params : List String} {body : List Stmt} {l' : Location}
    (inside : (Phrase.stmts body).IsParsed shapes) :
    (Phrase.expr 4 (.func params (.mk body l) l')).IsParsed
      (.keyword .func :: (parameters params ++ braced shapes)) := by
  intro final depth outer ts rest placed _ _
  obtain ⟨m, tail, rfl, placed'⟩ := placed.cons
  obtain ⟨front, back, rfl, before, behind⟩ := placed'.append
  obtain ⟨m', inner, q, last, rfl, same, found⟩ := block_reads (l := l) inside final depth rest behind
  refine ⟨.func params q m, last, by rw [Expr.unplaced, Expr.unplaced, same], expression_eq_climb ?_⟩
  rw [List.cons_append, List.append_assoc, operand.eq_def]
  exact (header_reads before rfl).andThen fun _ => found.map fun body => Expr.func params body m

theorem isParsed_binary {op : Operator} (first : (Phrase.expr (precedence op) left).IsParsed ls)
    (second : (Phrase.expr (precedence op + 1) right).IsParsed rs) :
    (Phrase.expr (precedence op) (.binary op left right l)).IsParsed (ls ++ .symbol (sign op) :: rs) := by
  intro final depth outer ts rest placed tight weak
  obtain ⟨front, back, rfl, before, placed'⟩ := placed.append
  obtain ⟨m, after, rfl, behind⟩ := placed'.cons
  have binds : binding (Shape.token (.symbol (sign op)) m :: (after ++ rest)) = precedence op := by
    change (levelOf (.symbol (sign op))).rank = _
    rw [levelOf_sign, rank_level]
  obtain ⟨q, last, same, found⟩ := first final depth outer front
    (Shape.token (.symbol (sign op)) m :: (after ++ rest)) before tight (Nat.le_of_eq binds)
  obtain ⟨q', last', same', found'⟩ := second final depth op.level after rest behind
    (by rw [rank_level]; omega) (by omega)
  have ends : (expression final depth op.level (after ++ rest)).Reads q' last' rest :=
    found'.trans (climb_stops (by rwa [rank_level]))
  refine ⟨.binary op q q' m, last', by rw [Expr.unplaced, Expr.unplaced, same, same'], ?_⟩
  rw [List.append_assoc, List.cons_append, found]
  exact climb_binary rfl tight ends

end Expressions

section Statements

variable {e value : Expr} {ending : Ending} {l l' : Location} {shapes us vs : List Shape} {rest : List Token}

/-- An expression at the end of a statement, and the semicolon behind it if there is one. -/
theorem Phrase.IsParsed.ended (parsed : (Phrase.expr 1 e).IsParsed shapes) (final : Token) (depth : Nat)
    {kept : Bool} {ts : List Token} (placed : Placed (shapes ++ semicolon kept) ts)
    (follows : Follows (endingOf kept) rest) :
    ∃ q last tail last', q.unplaced = e.unplaced ∧
      (expression final depth .lowest (ts ++ rest)).Reads q last tail ∧
      ∀ s : Stmt, (optionalSemicolon s last tail).Reads s last' rest := by
  obtain ⟨front, back, rfl, before, behind⟩ := placed.append
  rw [List.append_assoc]
  cases kept with
  | true =>
    obtain ⟨m, nothing, rfl, none⟩ := behind.cons
    obtain rfl := none.nil
    have weak : Parse.binding (Shape.token (.symbol .semicolon) m :: rest) = 0 := rfl
    obtain ⟨q, last, same, found⟩ := parsed.whole final depth before weak
    exact ⟨q, last, _, _, same, found, fun s => optionalSemicolon_some rfl⟩
  | false =>
    obtain rfl := behind.nil
    obtain ⟨q, last, same, found⟩ := parsed.whole final depth before follows.binding
    exact ⟨q, last, rest, last, same, found, fun s => optionalSemicolon_none follows.not_semicolon⟩

theorem isParsed_declare {word : String} :
    (Phrase.stmt .closed (.declare word none l)).IsParsed
      [.keyword .var, .name word, .symbol .semicolon] := by
  intro final depth ts rest placed _
  obtain ⟨m, tail, rfl, placed'⟩ := placed.cons
  obtain ⟨m', tail', rfl, placed''⟩ := placed'.cons
  obtain ⟨m'', nothing, rfl, none⟩ := placed''.cons
  obtain rfl := none.nil
  refine ⟨.declare word .none m, Shape.token (.symbol .semicolon) m'', rfl, ?_⟩
  rw [statement.eq_def]
  exact (expect_reads rfl).andThen fun _ => rfl

theorem isParsed_initialise {word : String} (kept : Bool)
    (given : (Phrase.expr 1 value).IsParsed shapes) :
    (Phrase.stmt (endingOf kept) (.declare word (some value) l)).IsParsed
      (.keyword .var :: .name word :: .symbol .assign :: (shapes ++ semicolon kept)) := by
  intro final depth ts rest placed follows
  obtain ⟨m, tail, rfl, placed'⟩ := placed.cons
  obtain ⟨m', tail', rfl, placed''⟩ := placed'.cons
  obtain ⟨m'', inner, rfl, behind⟩ := placed''.cons
  obtain ⟨q, last, tail, last', same, found, ends⟩ := given.ended final depth behind follows
  refine ⟨.declare word (some q) m, last', ?_, ?_⟩
  · rw [Stmt.unplaced, Stmt.unplaced, Expr.unplacedOption, Expr.unplacedOption, same]
  rw [statement.eq_def]
  refine (expect_reads rfl).andThen fun _ => ?_
  exact found.behind.andThen fun _ => ends _

theorem isParsed_assign {word : String} (kept : Bool)
    (given : (Phrase.expr 1 value).IsParsed shapes) :
    (Phrase.stmt (endingOf kept) (.assign word value l)).IsParsed
      (.name word :: .symbol .assign :: (shapes ++ semicolon kept)) := by
  intro final depth ts rest placed follows
  obtain ⟨m, tail, rfl, placed'⟩ := placed.cons
  obtain ⟨m', inner, rfl, behind⟩ := placed'.cons
  obtain ⟨q, last, tail, last', same, found, ends⟩ := given.ended final depth behind follows
  refine ⟨.assign word q m, last', by rw [Stmt.unplaced, Stmt.unplaced, same], ?_⟩
  rw [statement.eq_def]
  exact found.behind.andThen fun _ => ends _

theorem isParsed_print (kept : Bool) (given : (Phrase.expr 1 value).IsParsed shapes) :
    (Phrase.stmt .closed (.print value l)).IsParsed
      (.keyword .print :: .symbol .leftParen :: (shapes ++ .symbol .rightParen :: semicolon kept)) := by
  intro final depth ts rest placed follows
  obtain ⟨m, tail, rfl, placed'⟩ := placed.cons
  obtain ⟨m', tail', rfl, placed''⟩ := placed'.cons
  obtain ⟨inner, back, rfl, within, behind⟩ := placed''.append
  obtain ⟨m'', after, rfl, optional⟩ := behind.cons
  have weak : Parse.binding (Shape.token (.symbol .rightParen) m'' :: (after ++ rest)) = 0 := rfl
  obtain ⟨q, last, same, found⟩ := given.whole final depth within weak
  have ends : ∃ last', (optionalSemicolon (.print q m) (Shape.token (.symbol .rightParen) m'')
      (after ++ rest)).Reads (Stmt.print q m) last' rest := by
    cases kept with
    | true =>
      obtain ⟨n, nothing, rfl, none⟩ := optional.cons
      obtain rfl := none.nil
      exact ⟨_, optionalSemicolon_some rfl⟩
    | false =>
      obtain rfl := optional.nil
      exact ⟨_, optionalSemicolon_none follows.not_semicolon⟩
  obtain ⟨last', ends⟩ := ends
  refine ⟨.print q m, last', by rw [Stmt.unplaced, Stmt.unplaced, same], ?_⟩
  rw [List.cons_append, List.cons_append, List.append_assoc, statement.eq_def]
  refine (expect_reads rfl).andThen fun _ => ?_
  refine found.behind.andThen fun _ => ?_
  exact (expect_reads rfl).andThen fun _ => ends

/-- Without an `else` the first block is all. -/
theorem isParsed_branch {yes : List Stmt} (test : (Phrase.expr 1 value).IsParsed shapes)
    (taken : (Phrase.stmts yes).IsParsed us) :
    (Phrase.stmt .closed (.branch value (.mk yes l) none l')).IsParsed
      (.keyword .cond :: (shapes ++ braced us)) := by
  intro final depth ts rest placed follows
  obtain ⟨m, tail, rfl, placed'⟩ := placed.cons
  obtain ⟨front, back, rfl, before, behind⟩ := placed'.append
  obtain ⟨m', inner, body, last', rfl, sameBody, foundBody⟩ :=
    block_reads (l := l) taken final depth rest behind
  have weak : Parse.binding (Shape.token (.symbol .leftBrace) m' :: (inner ++ rest)) = 0 := rfl
  obtain ⟨q, last, same, found⟩ := test.whole final depth before weak
  refine ⟨.branch q body .none m, last', ?_, ?_⟩
  · rw [Stmt.unplaced, Stmt.unplaced, same, sameBody]
  rw [List.cons_append, List.append_assoc, statement.eq_def]
  refine found.behind.andThen fun _ => ?_
  refine (expect_reads rfl).andThen fun _ => ?_
  refine foundBody.andThen fun _ => ?_
  cases rest with
  | nil => rfl
  | cons t rest =>
    dsimp only
    rw [if_neg (follows.not_else t rfl)]
    rfl

theorem isParsed_choice {yes no : List Stmt} {l'' : Location}
    (test : (Phrase.expr 1 value).IsParsed shapes) (taken : (Phrase.stmts yes).IsParsed us)
    (untaken : (Phrase.stmts no).IsParsed vs) :
    (Phrase.stmt .closed (.branch value (.mk yes l) (some (.mk no l')) l'')).IsParsed
      (.keyword .cond :: (shapes ++ (braced us ++ .name "else" :: braced vs))) := by
  intro final depth ts rest placed _
  obtain ⟨m, tail, rfl, placed'⟩ := placed.cons
  obtain ⟨front, back, rfl, before, behind⟩ := placed'.append
  obtain ⟨first, second, rfl, yesPlaced, behind'⟩ := behind.append
  obtain ⟨n, after, rfl, noPlaced⟩ := behind'.cons
  obtain ⟨m', inner', body', last', rfl, sameNo, foundNo⟩ :=
    block_reads (l := l') untaken final depth rest noPlaced
  obtain ⟨m'', inner, body, last, rfl, sameYes, foundYes⟩ :=
    block_reads (l := l) taken final depth
      (Shape.token (.name "else") n :: Shape.token (.symbol .leftBrace) m' :: (inner' ++ rest)) yesPlaced
  have weak : Parse.binding (Shape.token (.symbol .leftBrace) m'' :: (inner ++
      Shape.token (.name "else") n :: Shape.token (.symbol .leftBrace) m' :: (inner' ++ rest))) = 0 := rfl
  obtain ⟨q, last'', same, found⟩ := test.whole final depth before weak
  refine ⟨.branch q body (some body') m, last', ?_, ?_⟩
  · rw [Stmt.unplaced, Stmt.unplaced, same, sameYes, Block.unplacedOption, sameNo]
    rfl
  rw [List.cons_append, List.append_assoc, List.append_assoc, statement.eq_def]
  refine found.behind.andThen fun _ => ?_
  refine (expect_reads rfl).andThen fun _ => ?_
  refine foundYes.andThen fun _ => ?_
  dsimp only
  rw [if_pos ⟨rfl, rfl⟩]
  refine Scan.Reads.behind (Scan.Reads.andThen (expect_reads rfl) fun _ => ?_)
  exact foundNo.map fun alternative => Stmt.branch q body (some alternative) m

theorem isParsed_block {body : List Stmt} (inside : (Phrase.stmts body).IsParsed shapes) :
    (Phrase.stmt .closed (.block (.mk body l))).IsParsed (braced shapes) := by
  intro final depth ts rest placed _
  obtain ⟨m, inner, q, last, rfl, same, found⟩ := block_reads (l := l) inside final depth rest placed
  refine ⟨.block q, last, by rw [Stmt.unplaced, Stmt.unplaced, same], ?_⟩
  rw [List.cons_append, statement.eq_def]
  exact found.map Stmt.block

theorem isParsed_foreign {word : String} :
    (Phrase.stmt .closed (.foreign word l)).IsParsed
      [.keyword .foreign, .name word, .symbol .semicolon] := by
  intro final depth ts rest placed _
  obtain ⟨m, tail, rfl, placed'⟩ := placed.cons
  obtain ⟨m', tail', rfl, placed''⟩ := placed'.cons
  obtain ⟨m'', nothing, rfl, none⟩ := placed''.cons
  obtain rfl := none.nil
  refine ⟨.foreign word m, Shape.token (.symbol .semicolon) m'', rfl, ?_⟩
  rw [statement.eq_def]
  exact (expect_reads rfl).andThen fun _ => rfl

theorem isParsed_leave :
    (Phrase.stmt .closed (.ret none l)).IsParsed [.keyword .ret, .symbol .semicolon] := by
  intro final depth ts rest placed _
  obtain ⟨m, tail, rfl, placed'⟩ := placed.cons
  obtain ⟨m', nothing, rfl, none⟩ := placed'.cons
  obtain rfl := none.nil
  refine ⟨.ret .none m, Shape.token (.symbol .semicolon) m', rfl, ?_⟩
  rw [statement.eq_def]
  rfl

/-- A `return` alone ends where its block does. -/
theorem isParsed_leaveLast : (Phrase.stmt .bare (.ret none l)).IsParsed [.keyword .ret] := by
  intro final depth ts rest placed follows
  obtain ⟨m, nothing, rfl, none⟩ := placed.cons
  obtain rfl := none.nil
  refine ⟨.ret .none m, Shape.token (.keyword .ret) m, rfl, ?_⟩
  rw [statement.eq_def]
  cases rest with
  | nil => rfl
  | cons t rest =>
    rcases follows t rfl with brace | ⟨_, notBare, _⟩
    · dsimp only [List.cons_append, List.nil_append, Shape.token, Shape.keyword]
      rw [if_neg (by simp [brace]), if_pos brace]
      rfl
    · exact absurd rfl notBare

/-- The front of an expression that ends a statement, with all that follows. -/
theorem opening_of_placed {level : Nat} {kept : Bool} {ts : List Token}
    (opens : (Phrase.expr level value).Opens shapes) (placed : Placed (shapes ++ semicolon kept) ts)
    (follows : Follows (endingOf kept) rest) : Opening ((ts ++ rest).map Token.shape) := by
  rw [List.map_append, placed, List.append_assoc]
  refine opens _ fun s first => ?_
  cases kept with
  | true => exact noAssign_symbol (x := .semicolon) nofun s first
  | false => exact follows.noAssign s first

theorem isParsed_ret (kept : Bool) (given : (Phrase.expr 1 value).IsParsed shapes)
    (opens : (Phrase.expr 1 value).Opens shapes) :
    (Phrase.stmt (endingOf kept) (.ret (some value) l)).IsParsed
      (.keyword .ret :: (shapes ++ semicolon kept)) := by
  intro final depth ts rest placed follows
  obtain ⟨m, inner, rfl, behind⟩ := placed.cons
  obtain ⟨q, last, tail, last', same, found, ends⟩ := given.ended final depth behind follows
  have opening := opening_of_placed opens behind follows
  refine ⟨.ret (some q) m, last', ?_, ?_⟩
  · rw [Stmt.unplaced, Stmt.unplaced, Expr.unplacedOption, Expr.unplacedOption, same]
  rw [List.cons_append, statement.eq_def]
  -- The value begins neither with a semicolon nor with the end of a block.
  cases front : inner ++ rest with
  | nil =>
    rw [front] at opening
    cases opening
  | cons t after =>
    rw [front] at opening found
    have kind (x : Symbol) (paren : x ≠ .leftParen) (brace : x ≠ .leftBrace) : t.kind ≠ .symbol x :=
      Shape.kind_ne_of_opensStatement opening.opensStatement paren brace
    dsimp only [Shape.token, Shape.keyword]
    rw [if_neg (kind .semicolon (by decide) (by decide)), if_neg (kind .rightBrace (by decide) (by decide))]
    exact found.behind.andThen fun _ => ends _

theorem isParsed_func {word : String} {params : List String} {body : List Stmt}
    (inside : (Phrase.stmts body).IsParsed shapes) :
    (Phrase.stmt .closed (.func word params (.mk body l) l')).IsParsed
      (.keyword .func :: .name word :: (parameters params ++ braced shapes)) := by
  intro final depth ts rest placed _
  obtain ⟨m, tail, rfl, placed'⟩ := placed.cons
  obtain ⟨m', tail', rfl, placed''⟩ := placed'.cons
  obtain ⟨front, back, rfl, before, behind⟩ := placed''.append
  obtain ⟨m'', inner, q, last, rfl, same, found⟩ := block_reads (l := l) inside final depth rest behind
  refine ⟨.func word params q m, last, by rw [Stmt.unplaced, Stmt.unplaced, same], ?_⟩
  rw [List.cons_append, List.cons_append, List.append_assoc, statement.eq_def]
  refine (header_reads before rfl).andThen fun _ => ?_
  exact found.map fun body => Stmt.func word params body m

/-- What begins like an expression begins like no other statement. -/
theorem bare_of_opening {t : Token} {rest : List Token} (opening : Opening ((t :: rest).map Token.shape)) :
    Bare t rest := by
  obtain ⟨kind, literal, m⟩ := t
  generalize shown : (Token.mk kind literal m :: rest).map Token.shape = shapes at opening
  cases opening with
  | name free used =>
    obtain ⟨head, tail⟩ := List.cons.inj shown
    cases head
    refine ⟨by simp, fun next first => ⟨by simp, fun both => ?_⟩⟩
    exact used next.shape (by rw [← tail, List.head?_map, first]; rfl) both.2
  | lambda =>
    obtain ⟨head, tail⟩ := List.cons.inj shown
    cases head
    obtain ⟨next, after, rfl, paren, _⟩ := List.map_eq_cons_iff.mp tail
    have kind : next.kind = .symbol .leftParen := congrArg Shape.kind paren
    refine ⟨by simp, fun next' first => ?_⟩
    cases first
    exact ⟨by simp [kind], by simp⟩
  | _ =>
    obtain ⟨head, tail⟩ := List.cons.inj shown
    cases head
    exact ⟨by simp, by simp⟩

theorem isParsed_expr (kept : Bool) (given : (Phrase.expr 1 value).IsParsed shapes)
    (opens : (Phrase.expr 1 value).Opens shapes) :
    (Phrase.stmt (endingOf kept) (.expr value l)).IsParsed (shapes ++ semicolon kept) := by
  intro final depth ts rest placed follows
  obtain ⟨q, last, tail, last', same, found, ends⟩ := given.ended final depth placed follows
  have opening := opening_of_placed opens placed follows
  cases front : ts ++ rest with
  | nil =>
    rw [front] at opening
    cases opening
  | cons t after =>
    rw [front] at opening found
    refine ⟨.expr q t.location, last', by rw [Stmt.unplaced, Stmt.unplaced, same], ?_⟩
    rw [statement_bare (bare_of_opening opening), bareExpression]
    exact found.andThen fun _ => ends _

theorem isParsed_nil : (Phrase.stmts []).IsParsed [] := by
  intro final closing depth opened ts rest placed ends
  obtain rfl := placed.nil
  refine ⟨[], rfl, ?_⟩
  rw [List.nil_append, statements, dif_pos ends]
  rfl

theorem isParsed_cons {s : Stmt} {ss : List Stmt} (first : (Phrase.stmt ending s).IsParsed shapes)
    (others : (Phrase.stmts ss).IsParsed us) (allowed : ending.Allows us)
    (opens : (Phrase.stmt ending s).Opens shapes) (opens' : (Phrase.stmts ss).Opens us) :
    (Phrase.stmts (s :: ss)).IsParsed (shapes ++ us) := by
  intro final closing depth opened ts rest placed ends
  obtain ⟨front, back, rfl, before, behind⟩ := placed.append
  have follows : Follows ending (back ++ closing :: rest) := by
    refine follows_of_allows allowed opens' behind fun t first => ?_
    cases first
    exact ends
  obtain ⟨q, last, same, found⟩ := first final depth front (back ++ closing :: rest) before follows
  obtain ⟨qs, same', found'⟩ := others final closing depth opened back rest behind ends
  refine ⟨q :: qs, by rw [Stmt.unplacedAll, Stmt.unplacedAll, same, same'], ?_⟩
  obtain ⟨s', shapes', rfl, starts⟩ := opens
  obtain ⟨m, tail, rfl, _⟩ := before.cons
  have goesOn : (s'.token m).kind ≠ .symbol .rightBrace :=
    Shape.kind_ne_of_opensStatement (s := s') starts (by decide) (by decide)
  rw [List.append_assoc, List.cons_append, statements.eq_def]
  dsimp only
  rw [dif_neg goesOn]
  exact found.orElse fun _ => (found'.map (q :: ·)).behind

end Statements

/-- The parser finds whatever the grammar derives. -/
theorem Derives.isParsed {φ : Phrase} {shapes : List Shape} (derived : Derives φ shapes) :
    (∀ leaf ∈ φ.leaves, leaf.Plain) → φ.IsParsed shapes := by
  induction derived with
  | @ident word l =>
    exact fun _ => isParsed_leaf fun final depth m rest => ⟨.ident word m, rfl, by rw [operand.eq_def]; rfl⟩
  | @number digits value l read =>
    intro plain
    have fits := (plain (.int value) (List.mem_singleton.mpr rfl)).2
    refine isParsed_leaf fun final depth m rest => ⟨.int value m, rfl, ?_⟩
    rw [operand.eq_def]
    dsimp only [Shape.token, Shape.number]
    rw [integer?_of_numeral read fits]
    rfl
  | @text body l =>
    exact fun _ => isParsed_leaf fun final depth m rest => ⟨.str body m, rfl, by rw [operand.eq_def]; rfl⟩
  | paren _ ih => exact fun plain => isParsed_paren (ih plain)
  | lambda _ ih =>
    intro plain
    obtain ⟨_, inside⟩ := List.forall_mem_append.mp plain
    exact isParsed_lambda (ih inside)
  | call _ given ih ih' =>
    intro plain
    obtain ⟨function, args⟩ := List.forall_mem_append.mp plain
    obtain ⟨_, callee⟩ := List.forall_mem_append.mp function
    exact isParsed_call (ih callee) (ih' args) (given.opens args)
  | binary _ _ ih ih' =>
    intro plain
    obtain ⟨left, right⟩ := List.forall_mem_append.mp plain
    exact isParsed_binary (ih left) (ih' right)
  | tighter _ ih =>
    intro plain final depth outer ts rest placed tight weak
    exact ih plain final depth outer ts rest placed (by omega) (by omega)
  | none =>
    intro _ final closing depth ts rest placed some
    exact absurd placed.nil some
  | last _ ih =>
    intro plain
    obtain ⟨only, _⟩ := List.forall_mem_append.mp plain
    exact isParsed_last (ih only)
  | more _ others ih ih' =>
    intro plain
    obtain ⟨now, later⟩ := List.forall_mem_append.mp plain
    exact isParsed_more (ih now) (ih' later) (others.opens later)
  | declare => exact fun _ => isParsed_declare
  | initialise kept _ ih =>
    intro plain
    obtain ⟨_, given⟩ := List.forall_mem_cons.mp plain
    exact isParsed_initialise kept (ih given)
  | assign kept _ ih =>
    intro plain
    obtain ⟨_, given⟩ := List.forall_mem_cons.mp plain
    exact isParsed_assign kept (ih given)
  | print kept _ ih => exact fun plain => isParsed_print kept (ih plain)
  | branch _ _ ih ih' =>
    intro plain
    obtain ⟨both, _⟩ := List.forall_mem_append.mp plain
    obtain ⟨test, taken⟩ := List.forall_mem_append.mp both
    exact isParsed_branch (ih test) (ih' taken)
  | choice _ _ _ ih ih' ih'' =>
    intro plain
    obtain ⟨both, untaken⟩ := List.forall_mem_append.mp plain
    obtain ⟨test, taken⟩ := List.forall_mem_append.mp both
    exact isParsed_choice (ih test) (ih' taken) (ih'' untaken)
  | block _ ih => exact fun plain => isParsed_block (ih plain)
  | foreign => exact fun _ => isParsed_foreign
  | leave => exact fun _ => isParsed_leave
  | leaveLast => exact fun _ => isParsed_leaveLast
  | ret kept given ih => exact fun plain => isParsed_ret kept (ih plain) (given.opens plain)
  | func _ ih =>
    intro plain
    obtain ⟨_, others⟩ := List.forall_mem_cons.mp plain
    obtain ⟨_, inside⟩ := List.forall_mem_append.mp others
    exact isParsed_func (ih inside)
  | expr kept given ih => exact fun plain => isParsed_expr kept (ih plain) (given.opens plain)
  | nil => exact fun _ => isParsed_nil
  | cons first others allowed ih ih' =>
    intro plain
    obtain ⟨now, later⟩ := List.forall_mem_append.mp plain
    exact isParsed_cons (ih now) (ih' later) allowed (first.opens now) (others.opens later)

/-- All statements of a program are read and nothing is complained about. -/
theorem program_reads {ss : List Stmt} {shapes : List Shape} (derived : Derives (.stmts ss) shapes)
    (plain : ∀ leaf ∈ Stmt.leavesOfAll ss, leaf.Plain) (final : Token) {ts : List Token}
    (placed : Placed shapes ts) :
    ∃ qs, Stmt.unplacedAll qs = Stmt.unplacedAll ss ∧ Parse.program final ts = (qs, []) := by
  induction ss generalizing shapes ts with
  | nil =>
    cases derived
    obtain rfl := placed.nil
    exact ⟨[], rfl, by rw [Parse.program]⟩
  | cons s ss ih =>
    cases derived with
    | @cons ending _ _ shapes us first others allowed =>
      obtain ⟨now, later⟩ := List.forall_mem_append.mp plain
      obtain ⟨front, back, rfl, before, behind⟩ := placed.append
      have follows : Follows ending (back ++ []) := by
        refine follows_of_allows allowed (others.opens later) behind fun t first => ?_
        cases first
      rw [List.append_nil] at follows
      obtain ⟨q, last, same, found⟩ := first.isParsed now final 0 front back before follows
      obtain ⟨qs, same', found'⟩ := ih others later behind
      refine ⟨q :: qs, by rw [Stmt.unplacedAll, Stmt.unplacedAll, same, same'], ?_⟩
      obtain ⟨s', shapes', rfl, _⟩ := first.opens now
      obtain ⟨m, tail, rfl, _⟩ := before.cons
      rw [List.cons_append] at found ⊢
      rw [program_of_parsed found, found', List.nil_append]

end ImpToC.Rendering
