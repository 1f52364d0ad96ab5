import ImpToC.Proofs.C.Grammar

/-!
The grammar of C reads a file in at most one way. Expressions are compared with a
reading that goes over the tokens once, from left to right, and takes in operators
as long as they bind tightly enough; it is deterministic, and it finds whatever the
grammar derives. Statements and files then follow one token at a time.
-/
namespace ImpToC.C.Grammar

/-- How tightly a token binds what stands before it. -/
def strength : Tok → Nat
  | .op op => precedence op
  | .leftParen => 4
  | _ => 0

/-- The next token, if there is one, binds less tightly than a level. -/
def Stops (level : Nat) (rest : List Tok) : Prop := ∀ t, rest.head? = some t → strength t < level

theorem stops_cons {level : Nat} {t : Tok} {rest : List Tok} (weak : strength t < level) :
    Stops level (t :: rest) := by
  intro u same
  cases same
  exact weak

theorem Stops.mono {level higher : Nat} {rest : List Tok} (stops : Stops level rest)
    (le : level ≤ higher) : Stops higher rest :=
  fun t same => Nat.lt_of_lt_of_le (stops t same) le

/-- What one pass over the tokens does: read an operand, an expression of a level or
arguments, or go on after the left operand of what follows. -/
inductive Goal where
  | operand (e : Expr)
  | expr (level : Nat) (e : Expr)
  | climb (level : Nat) (left e : Expr)
  | args (es : List Expr)

inductive Reading : Goal → List Tok → List Tok → Prop where
  | ident {name : String} {rest : List Tok} (free : name ∉ keywords) :
      Reading (.operand (.ident name)) (.word name :: rest) rest
  | number {digits : List Char} {value : Nat} {rest : List Tok} (read : numeral? digits = some value) :
      Reading (.operand (.int value)) (.number digits :: rest) rest
  | literal {body : List Char} {rest : List Tok} :
      Reading (.operand (.str body)) (.literal body :: rest) rest
  | paren {e : Expr} {ts rest : List Tok} (inside : Reading (.expr 1 e) ts (.rightParen :: rest)) :
      Reading (.operand e) (.leftParen :: ts) rest
  | expr {level : Nat} {left e : Expr} {ts middle rest : List Tok}
      (first : Reading (.operand left) ts middle) (others : Reading (.climb level left e) middle rest) :
      Reading (.expr level e) ts rest
  | stop {level : Nat} {e : Expr} {rest : List Tok} (stops : Stops level rest) :
      Reading (.climb level e e) rest rest
  | op {level : Nat} {op : Operator} {left right e : Expr} {ts middle rest : List Tok}
      (tight : level ≤ precedence op)
      (second : Reading (.expr (precedence op + 1) right) ts middle)
      (others : Reading (.climb level (.binary op left right) e) middle rest) :
      Reading (.climb level left e) (.op op :: ts) rest
  | call {level : Nat} {left e : Expr} {args : List Expr} {ts middle rest : List Tok} (tight : level ≤ 4)
      (given : Reading (.args args) ts (.rightParen :: middle))
      (others : Reading (.climb level (.call left args) e) middle rest) :
      Reading (.climb level left e) (.leftParen :: ts) rest
  | none {rest : List Tok} : Reading (.args []) (.rightParen :: rest) (.rightParen :: rest)
  | last {e : Expr} {ts rest : List Tok} (only : Reading (.expr 1 e) ts (.rightParen :: rest)) :
      Reading (.args [e]) ts (.rightParen :: rest)
  | more {e e' : Expr} {es : List Expr} {ts us rest : List Tok}
      (first : Reading (.expr 1 e) ts (.comma :: us)) (others : Reading (.args (e' :: es)) us rest) :
      Reading (.args (e :: e' :: es)) ts rest

/-- The same thing to do, whatever comes out of it. -/
inductive SameTask : Goal → Goal → Prop where
  | operand (e e' : Expr) : SameTask (.operand e) (.operand e')
  | expr (level : Nat) (e e' : Expr) : SameTask (.expr level e) (.expr level e')
  | climb (level : Nat) (left e e' : Expr) : SameTask (.climb level left e) (.climb level left e')
  | args (es es' : List Expr) : SameTask (.args es) (.args es')

/-- One pass over the tokens has one outcome. -/
theorem Reading.deterministic {g : Goal} {ts rest : List Tok} (first : Reading g ts rest) :
    ∀ g' rest', SameTask g g' → Reading g' ts rest' → g = g' ∧ rest = rest' := by
  induction first with
  | ident free =>
    rintro _ rest' ⟨⟩ second
    cases second
    exact ⟨rfl, rfl⟩
  | number read =>
    rintro _ rest' ⟨⟩ second
    cases second with
    | number again =>
      rw [read, Option.some.injEq] at again
      exact ⟨by rw [again], rfl⟩
  | literal =>
    rintro _ rest' ⟨⟩ second
    cases second
    exact ⟨rfl, rfl⟩
  | paren inside ih =>
    rintro _ rest' ⟨⟩ second
    cases second with
    | paren inside' =>
      obtain ⟨same, rests⟩ := ih _ _ (.expr 1 _ _) inside'
      cases same
      cases rests
      exact ⟨rfl, rfl⟩
  | expr operand others ihOperand ihOthers =>
    rintro _ rest' ⟨⟩ second
    cases second with
    | expr operand' others' =>
      obtain ⟨same, rfl⟩ := ihOperand _ _ (.operand _ _) operand'
      cases same
      obtain ⟨same, rfl⟩ := ihOthers _ _ (.climb _ _ _ _) others'
      cases same
      exact ⟨rfl, rfl⟩
  | stop stops =>
    rintro _ rest' ⟨⟩ second
    cases second with
    | stop => exact ⟨rfl, rfl⟩
    | op tight => exact absurd (stops _ rfl) (Nat.not_lt.mpr tight)
    | call tight => exact absurd (stops _ rfl) (Nat.not_lt.mpr tight)
  | op tight right others ihRight ihOthers =>
    rintro _ rest' ⟨⟩ second
    cases second with
    | stop stops => exact absurd (stops _ rfl) (Nat.not_lt.mpr tight)
    | op _ right' others' =>
      obtain ⟨same, rfl⟩ := ihRight _ _ (.expr _ _ _) right'
      cases same
      obtain ⟨same, rfl⟩ := ihOthers _ _ (.climb _ _ _ _) others'
      cases same
      exact ⟨rfl, rfl⟩
  | call tight given others ihGiven ihOthers =>
    rintro _ rest' ⟨⟩ second
    cases second with
    | stop stops => exact absurd (stops _ rfl) (Nat.not_lt.mpr tight)
    | call _ given' others' =>
      obtain ⟨same, rests⟩ := ihGiven _ _ (.args _ _) given'
      cases same
      cases rests
      obtain ⟨same, rfl⟩ := ihOthers _ _ (.climb _ _ _ _) others'
      cases same
      exact ⟨rfl, rfl⟩
  | none =>
    rintro _ rest' ⟨⟩ second
    cases second with
    | none => exact ⟨rfl, rfl⟩
    | last only => cases only with | expr operand => cases operand
    | more first => cases first with | expr operand => cases operand
  | last only ih =>
    rintro _ rest' ⟨⟩ second
    cases second with
    | none => cases only with | expr operand => cases operand
    | last only' =>
      obtain ⟨same, rests⟩ := ih _ _ (.expr _ _ _) only'
      cases same
      exact ⟨rfl, rests⟩
    | more first' => cases (ih _ _ (.expr _ _ _) first').2
  | more first others ihFirst ihOthers =>
    rintro _ rest' ⟨⟩ second
    cases second with
    | none => cases first with | expr operand => cases operand
    | last only' => cases (ihFirst _ _ (.expr _ _ _) only').2
    | more first' others' =>
      obtain ⟨same, rests⟩ := ihFirst _ _ (.expr _ _ _) first'
      cases same
      cases rests
      obtain ⟨same, rfl⟩ := ihOthers _ _ (.args _ _) others'
      cases same
      exact ⟨rfl, rfl⟩

/-- What one pass does with tokens that stand for a phrase. For an expression it goes
on with what follows, as if it had read the expression as a left operand. -/
def Phrase.IsRead (ts : List Tok) : Phrase → Prop
  | .expr n e => ∀ level rest result after, level ≤ n → Stops (n + 1) rest →
      Reading (.climb level e result) rest after → Reading (.expr level result) (ts ++ rest) after
  | .args es => ∀ rest, Reading (.args es) (ts ++ .rightParen :: rest) (.rightParen :: rest)

/-- One pass finds whatever the grammar derives. -/
theorem Derives.isRead {phrase : Phrase} {ts : List Tok} (derives : Derives phrase ts) :
    phrase.IsRead ts := by
  induction derives with
  | ident free => exact fun level rest result after _ _ others => .expr (.ident free) others
  | number read => exact fun level rest result after _ _ others => .expr (.number read) others
  | literal => exact fun level rest result after _ _ others => .expr .literal others
  | @paren e ts inside ih =>
    intro level rest result after _ _ others
    have closed : Reading (.climb 1 e e) (.rightParen :: rest) (.rightParen :: rest) :=
      .stop (stops_cons (by decide))
    have inner := ih 1 (.rightParen :: rest) e (.rightParen :: rest) (by omega)
      (stops_cons (by decide)) closed
    rw [List.cons_append, List.append_assoc]
    exact .expr (.paren inner) others
  | @call callee args fs ts function given ihFunction ihGiven =>
    intro level rest result after le _ others
    rw [List.append_assoc, List.cons_append, List.append_assoc]
    exact ihFunction level _ result after le (stops_cons (by decide)) (.call le (ihGiven rest) others)
  | @binary op left right ls rs first second ihFirst ihSecond =>
    intro level rest result after le stops others
    have rightStops : Reading (.climb (precedence op + 1) right right) rest rest := .stop stops
    have rightRead := ihSecond (precedence op + 1) rest right rest (Nat.le_refl _)
      (stops.mono (Nat.le_succ _)) rightStops
    rw [List.append_assoc, List.cons_append]
    exact ihFirst level _ result after le (stops_cons (Nat.lt_succ_self _)) (.op le rightRead others)
  | tighter tight ih =>
    intro level rest result after le stops others
    exact ih level rest result after (by omega) (stops.mono (by omega)) others
  | none => exact fun rest => .none
  | @last e ts only ih =>
    intro rest
    exact .last (ih 1 (.rightParen :: rest) e _ (by omega) (stops_cons (by decide))
      (.stop (stops_cons (by decide))))
  | @more e e' es ts us first others ihFirst ihOthers =>
    intro rest
    rw [List.append_assoc, List.cons_append]
    have head := ihFirst 1 (.comma :: (us ++ .rightParen :: rest)) e _ (by omega)
      (stops_cons (by decide)) (.stop (stops_cons (by decide)))
    exact .more head (ihOthers rest)

/-- An expression at the front of some tokens is told by them, as long as it is known
to end where no operator and no call follows. -/
theorem derives_unique {e e' : Expr} {ts ts' rest rest' : List Tok}
    (first : Derives (.expr 1 e) ts) (second : Derives (.expr 1 e') ts') (stops : Stops 1 rest)
    (stops' : Stops 1 rest') (same : ts ++ rest = ts' ++ rest') : e = e' ∧ rest = rest' := by
  have read := first.isRead 1 rest e rest (Nat.le_refl _) (stops.mono (by omega)) (.stop stops)
  have read' := second.isRead 1 rest' e' rest' (Nat.le_refl _) (stops'.mono (by omega)) (.stop stops')
  rw [← same] at read'
  obtain ⟨equal, rests⟩ := read.deterministic _ _ (.expr 1 e e') read'
  cases equal
  exact ⟨rfl, rests⟩

/-- The tokens that an expression can start with. -/
def Opens : Tok → Prop
  | .word name => name ∉ keywords
  | .number _ | .literal _ | .leftParen => True
  | _ => False

theorem opens_of_derives {phrase : Phrase} {ts : List Tok} (derives : Derives phrase ts) :
    ∀ level e, phrase = .expr level e → ∃ t us, ts = t :: us ∧ Opens t := by
  induction derives with
  | ident free => exact fun _ _ _ => ⟨_, [], rfl, free⟩
  | number read => exact fun _ _ _ => ⟨_, [], rfl, trivial⟩
  | literal => exact fun _ _ _ => ⟨_, [], rfl, trivial⟩
  | paren inside ih => exact fun _ _ _ => ⟨_, _, rfl, trivial⟩
  | call function given ihFunction ihGiven =>
    intro _ _ _
    obtain ⟨t, us, rfl, opens⟩ := ihFunction _ _ rfl
    exact ⟨t, _, rfl, opens⟩
  | binary first second ihFirst ihSecond =>
    intro _ _ _
    obtain ⟨t, us, rfl, opens⟩ := ihFirst _ _ rfl
    exact ⟨t, _, rfl, opens⟩
  | tighter tight ih => exact fun _ _ _ => ih _ _ rfl
  | none => exact fun _ _ same => nomatch same
  | last only ih => exact fun _ _ same => nomatch same
  | more first others ihFirst ihOthers => exact fun _ _ same => nomatch same

/-- The forms of statements, as far as two tokens tell them. -/
inductive Shape where
  | declaration | assignment | expression | leaving | choice | block | closing

/-- The form that the first tokens announce. -/
def shapeOf : List Tok → Shape
  | .word name :: rest =>
    if name = "int" ∨ name = "char" then .declaration
    else if name = "return" then .leaving
    else if name = "if" then .choice
    else if rest.head? = some .assign then .assignment
    else .expression
  | .leftBrace :: _ => .block
  | .rightBrace :: _ => .closing
  | _ => .expression

def Stmt.shape : Stmt → Shape
  | .declare _ _ _ => .declaration
  | .assign _ _ => .assignment
  | .expr _ => .expression
  | .ret _ => .leaving
  | .branch _ _ _ => .choice
  | .block _ => .block

theorem shapeOf_type (type : ValueType) (rest : List Tok) :
    shapeOf (typeTokens type ++ rest) = .declaration := by
  cases type <;> rfl

/-- A word that is no keyword announces an assignment or an expression. -/
theorem shapeOf_word {name : String} (free : name ∉ keywords) (rest : List Tok) :
    shapeOf (.word name :: rest) =
      if rest.head? = some .assign then .assignment else .expression := by
  have other : ∀ word ∈ keywords, name ≠ word := by
    rintro word listed rfl
    exact free listed
  rw [shapeOf, if_neg (not_or.mpr ⟨other "int" (by decide), other "char" (by decide)⟩),
    if_neg (other "return" (by decide)), if_neg (other "if" (by decide))]

/-- Behind an expression statement's first word there is no equals sign: the word
alone is an expression, and an expression ends in one place only. -/
theorem shapeOf_expr {e : Expr} {ts rest : List Tok} (given : Derives (.expr 1 e) ts) :
    shapeOf (ts ++ .semicolon :: rest) = .expression := by
  obtain ⟨t, us, rfl, opens⟩ := opens_of_derives given 1 e rfl
  cases t with
  | word name =>
    rw [List.cons_append, shapeOf_word opens, if_neg]
    intro assigned
    cases following : us ++ .semicolon :: rest with
    | nil => simp [following] at assigned
    | cons u others =>
      rw [following, List.head?_cons, Option.some.injEq] at assigned
      subst assigned
      have alone : Derives (.expr 1 (.ident name)) [.word name] :=
        .tighter (.tighter (.tighter (.ident opens)))
      have same : [.word name] ++ .assign :: others = (.word name :: us) ++ .semicolon :: rest := by
        rw [List.cons_append, List.nil_append, List.cons_append, following]
      have ends := derives_unique alone given (stops_cons (by decide)) (stops_cons (by decide)) same
      cases ends.2
  | number digits => rfl
  | literal body => rfl
  | leftParen => rfl
  | op op => exact opens.elim
  | assign => exact opens.elim
  | comma => exact opens.elim
  | semicolon => exact opens.elim
  | rightParen => exact opens.elim
  | leftBrace => exact opens.elim
  | rightBrace => exact opens.elim

theorem Parses.shapeOf_eq {s : Stmt} {input rest : List Tok} (parses : Parses (.stmt s) input rest) :
    shapeOf input = s.shape := by
  cases parses with
  | declare free => exact shapeOf_type _ _
  | initialise free given => exact shapeOf_type _ _
  | assign free given => exact shapeOf_word free _
  | expr given => exact shapeOf_expr given
  | ret given => rfl
  | branch test taken alone => rfl
  | choice test taken untaken => rfl
  | block inside => rfl

theorem typeTokens_append_inj {type type' : ValueType} {rest rest' : List Tok}
    (same : typeTokens type ++ rest = typeTokens type' ++ rest') : type = type' ∧ rest = rest' := by
  cases type <;> cases type' <;> simp_all [typeTokens]

/-- That two readings of the same tokens are one: of a statement in any case, of
statements if both end in front of a closing brace. -/
def Part.Agree (rest rest' : List Tok) : Part → Part → Prop
  | .stmt s, .stmt s' => s = s' ∧ rest = rest'
  | .stmts ss, .stmts ss' => rest.head? = some .rightBrace → rest'.head? = some .rightBrace →
      ss = ss' ∧ rest = rest'
  | _, _ => True

/-- An expression in front of a token that cannot go on with it. -/
theorem derives_unique_cons {e e' : Expr} {ts ts' rest rest' : List Tok} {t : Tok}
    (first : Derives (.expr 1 e) ts) (second : Derives (.expr 1 e') ts') (weak : strength t = 0)
    (same : ts ++ t :: rest = ts' ++ t :: rest') : e = e' ∧ rest = rest' := by
  have stops : ∀ others, Stops 1 (t :: others) := fun others => stops_cons (by omega)
  obtain ⟨equal, rests⟩ := derives_unique first second (stops rest) (stops rest') same
  cases rests
  exact ⟨equal, rfl⟩

theorem Parses.not_closing {s : Stmt} {input rest : List Tok} (parses : Parses (.stmt s) input rest) :
    input.head? ≠ some .rightBrace := by
  intro closing
  obtain ⟨others, rfl⟩ := List.head?_eq_some_iff.mp closing
  have shapes := parses.shapeOf_eq
  cases s <;> cases shapes

/-- To compare a statement with whatever else the tokens may be, only statements of
the form that the tokens announce count. -/
theorem agree_of_stmt {s : Stmt} {input rest : List Tok}
    (each : ∀ s' input' rest', Parses (.stmt s') input' rest' → input = input' →
      shapeOf input' = s'.shape → s = s' ∧ rest = rest') :
    ∀ part input' rest', Parses part input' rest' → input = input' →
      (Part.stmt s).Agree rest rest' part := by
  intro part input' rest' second same
  cases part with
  | stmts ss => trivial
  | stmt s' => exact each s' input' rest' second same second.shapeOf_eq

/-- The grammar reads statements in at most one way. -/
theorem Parses.unique {part : Part} {input rest : List Tok} (first : Parses part input rest) :
    ∀ part' input' rest', Parses part' input' rest' → input = input' → part.Agree rest rest' part' := by
  induction first with
  | @declare type name rest free =>
    refine agree_of_stmt fun s' input' rest' second same shapes => ?_
    rw [← same, shapeOf_type] at shapes
    cases second with
    | declare free' =>
      obtain ⟨rfl, tails⟩ := typeTokens_append_inj same
      cases tails
      exact ⟨rfl, rfl⟩
    | initialise free' given' =>
      obtain ⟨rfl, tails⟩ := typeTokens_append_inj same
      cases tails
    | _ => cases shapes
  | @initialise type name value ts rest free given =>
    refine agree_of_stmt fun s' input' rest' second same shapes => ?_
    rw [← same, shapeOf_type] at shapes
    cases second with
    | declare free' =>
      obtain ⟨rfl, tails⟩ := typeTokens_append_inj same
      cases tails
    | initialise free' given' =>
      obtain ⟨rfl, tails⟩ := typeTokens_append_inj same
      rw [List.cons.injEq, List.cons.injEq, Tok.word.injEq] at tails
      obtain ⟨rfl, _, tails⟩ := tails
      obtain ⟨rfl, rfl⟩ := derives_unique_cons given given' rfl tails
      exact ⟨rfl, rfl⟩
    | _ => cases shapes
  | @assign name value ts rest free given =>
    refine agree_of_stmt fun s' input' rest' second same shapes => ?_
    rw [← same, shapeOf_word free] at shapes
    cases second with
    | assign free' given' =>
      rw [List.cons.injEq, List.cons.injEq, Tok.word.injEq] at same
      obtain ⟨rfl, _, tails⟩ := same
      obtain ⟨rfl, rfl⟩ := derives_unique_cons given given' rfl tails
      exact ⟨rfl, rfl⟩
    | _ => cases shapes
  | @expr value ts rest given =>
    refine agree_of_stmt fun s' input' rest' second same shapes => ?_
    rw [← same, shapeOf_expr given] at shapes
    cases second with
    | expr given' =>
      obtain ⟨rfl, rfl⟩ := derives_unique_cons given given' rfl same
      exact ⟨rfl, rfl⟩
    | _ => cases shapes
  | @ret value ts rest given =>
    refine agree_of_stmt fun s' input' rest' second same shapes => ?_
    rw [← same] at shapes
    cases second with
    | ret given' =>
      rw [List.cons.injEq] at same
      obtain ⟨rfl, rfl⟩ := derives_unique_cons given given' rfl same.2
      exact ⟨rfl, rfl⟩
    | _ => cases shapes
  | @branch condition yes ts body rest test taken alone ih =>
    refine agree_of_stmt fun s' input' rest' second same shapes => ?_
    rw [← same] at shapes
    cases second with
    | branch test' taken' alone' =>
      rw [List.cons.injEq, List.cons.injEq] at same
      obtain ⟨rfl, tails⟩ := derives_unique_cons test test' rfl same.2.2
      obtain ⟨rfl, rests⟩ := ih _ _ _ taken' (List.cons.inj tails).2 rfl rfl
      exact ⟨rfl, (List.cons.inj rests).2⟩
    | choice test' taken' untaken' =>
      rw [List.cons.injEq, List.cons.injEq] at same
      obtain ⟨rfl, tails⟩ := derives_unique_cons test test' rfl same.2.2
      obtain ⟨rfl, rests⟩ := ih _ _ _ taken' (List.cons.inj tails).2 rfl rfl
      rw [(List.cons.inj rests).2] at alone
      exact absurd rfl alone
    | _ => cases shapes
  | @choice condition yes no ts body other rest test taken untaken ihTaken ihUntaken =>
    refine agree_of_stmt fun s' input' rest' second same shapes => ?_
    rw [← same] at shapes
    cases second with
    | branch test' taken' alone' =>
      rw [List.cons.injEq, List.cons.injEq] at same
      obtain ⟨rfl, tails⟩ := derives_unique_cons test test' rfl same.2.2
      obtain ⟨rfl, rests⟩ := ihTaken _ _ _ taken' (List.cons.inj tails).2 rfl rfl
      rw [← (List.cons.inj rests).2] at alone'
      exact absurd rfl alone'
    | choice test' taken' untaken' =>
      rw [List.cons.injEq, List.cons.injEq] at same
      obtain ⟨rfl, tails⟩ := derives_unique_cons test test' rfl same.2.2
      obtain ⟨rfl, rests⟩ := ihTaken _ _ _ taken' (List.cons.inj tails).2 rfl rfl
      rw [List.cons.injEq, List.cons.injEq, List.cons.injEq] at rests
      obtain ⟨rfl, rests⟩ := ihUntaken _ _ _ untaken' rests.2.2.2 rfl rfl
      exact ⟨rfl, (List.cons.inj rests).2⟩
    | _ => cases shapes
  | @block body inner rest inside ih =>
    refine agree_of_stmt fun s' input' rest' second same shapes => ?_
    rw [← same] at shapes
    cases second with
    | block inside' =>
      obtain ⟨rfl, rests⟩ := ih _ _ _ inside' (List.cons.inj same).2 rfl rfl
      exact ⟨rfl, (List.cons.inj rests).2⟩
    | _ => cases shapes
  | nil =>
    intro part' input' rest' second same
    cases second with
    | nil => exact fun _ _ => ⟨rfl, same⟩
    | cons first' others' =>
      intro closing _
      rw [same] at closing
      exact absurd closing first'.not_closing
    | _ => trivial
  | cons first others ihFirst ihOthers =>
    intro part' input' rest' second same
    cases second with
    | nil =>
      intro _ closing'
      rw [← same] at closing'
      exact absurd closing' first.not_closing
    | cons first' others' =>
      intro closing closing'
      obtain ⟨rfl, rfl⟩ := ihFirst _ _ _ first' same
      obtain ⟨rfl, rfl⟩ := ihOthers _ _ _ others' rfl closing closing'
      exact ⟨rfl, rfl⟩
    | _ => trivial

theorem paramTokens_append_inj {params params' : List String} {rest rest' : List Tok}
    (same : paramTokens params ++ .rightParen :: rest = paramTokens params' ++ .rightParen :: rest') :
    params = params' ∧ rest = rest' := by
  induction params using paramTokens.induct generalizing params' with
  | case1 =>
    match params' with
    | [] => exact ⟨rfl, (List.cons.inj same).2⟩
    | [_] | _ :: _ :: _ => cases same
  | case2 name =>
    match params' with
    | [] | _ :: _ :: _ => cases same
    | [_] =>
      cases same
      exact ⟨rfl, rfl⟩
  | case3 name other names ih =>
    match params' with
    | [] | [_] => cases same
    | name' :: other' :: names' =>
      simp only [paramTokens, List.cons_append, List.cons.injEq, Tok.word.injEq, true_and] at same
      obtain ⟨rfl, tails⟩ := same
      obtain ⟨equal, rfl⟩ := ih tails
      exact ⟨by rw [equal], rfl⟩

theorem signatureTokens_append_inj {name name' : String} {params params' : List String}
    {rest rest' : List Tok}
    (same : signatureTokens name params ++ rest = signatureTokens name' params' ++ rest') :
    name = name' ∧ params = params' ∧ rest = rest' := by
  simp only [signatureTokens, List.cons_append, List.append_assoc, List.nil_append, List.cons.injEq,
    Tok.word.injEq, true_and] at same
  obtain ⟨rfl, tails⟩ := same
  exact ⟨rfl, paramTokens_append_inj tails⟩

/-- The grammar reads a file in at most one way. -/
theorem File.unique {items : List Item} {ts : List Tok} (first : File items ts) :
    ∀ items' ts', File items' ts' → ts = ts' → items = items' := by
  induction first with
  | nil =>
    intro items' ts' second same
    cases second with
    | nil => rfl
    | prototype => cases same
    | definition => cases same
  | prototype free others ih =>
    intro items' ts' second same
    cases second with
    | nil => cases same
    | prototype free' others' =>
      obtain ⟨rfl, rfl, tails⟩ := signatureTokens_append_inj same
      rw [ih _ _ others' (List.cons.inj tails).2]
    | definition free' inside' others' =>
      obtain ⟨_, _, tails⟩ := signatureTokens_append_inj same
      cases tails
  | definition free inside others ih =>
    intro items' ts' second same
    cases second with
    | nil => cases same
    | prototype free' others' =>
      obtain ⟨_, _, tails⟩ := signatureTokens_append_inj same
      cases tails
    | definition free' inside' others' =>
      obtain ⟨rfl, rfl, tails⟩ := signatureTokens_append_inj same
      obtain ⟨rfl, rests⟩ := inside.unique _ _ _ inside' (List.cons.inj tails).2 rfl rfl
      rw [ih _ _ others' (List.cons.inj rests).2]

end ImpToC.C.Grammar
