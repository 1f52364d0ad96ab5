import Mathlib.Data.List.Forall2
import ImpToC.Proofs.C.Keywords
import ImpToC.Proofs.C.Lexing
import ImpToC.Proofs.C.Unambiguous
import ImpToC.Proofs.Translation

/-!
Emitted text, part by part. A text spells an expression if the lexer makes of it
tokens that the grammar derives the expression from; it lays out statements in the
same sense. If a keyword is called somewhere, the grammar derives nothing, and the
tokens show why. How the parts of a text are put together decides what the whole spells,
so each way to put them together is one lemma.
-/
namespace ImpToC.C.Grammar

theorem Derives.loosen {n m : Nat} {e : Expr} {ts : List Tok} (derives : Derives (.expr n e) ts)
    (le : m ≤ n) : Derives (.expr m e) ts := by
  induction le with
  | refl => exact derives
  | step _ ih => exact ih (.tighter derives)

/-- The lexer makes these tokens of a text, whatever follows it. -/
def Lexed (text : List Char) (ts : List Tok) : Prop :=
  ∀ rest, Ends rest → lex (text ++ rest) = (lex rest).map (ts ++ ·)

/-- A text whose tokens are this expression, unless a keyword is called in it. -/
def Spelt (called : Prop) (text : String) (level : Nat) (e : Expr) : Prop :=
  ∃ ts, Lexed text.toList ts ∧ (¬ called → Derives (.expr level e) ts) ∧ (called → ¬ Proper ts)

theorem Spelt.loosen {called : Prop} {text : String} {n m : Nat} {e : Expr} (spelt : Spelt called text n e)
    (le : m ≤ n) : Spelt called text m e := by
  obtain ⟨ts, lexed, derives, improper⟩ := spelt
  exact ⟨ts, lexed, fun free => (derives free).loosen le, improper⟩

theorem Spelt.congr {called other : Prop} {text : String} {n : Nat} {e : Expr} (spelt : Spelt called text n e)
    (same : called ↔ other) : Spelt other text n e := by
  rwa [← propext same]

/-- A name that is no keyword stands for itself. -/
theorem spelt_ident {name : String} (ident : IsIdent name) (free : name ∉ keywords) :
    Spelt False name 4 (.ident name) :=
  ⟨[.word name], fun rest ends => by rw [lex_word ident ends]; rfl, fun _ => .ident free, False.elim⟩

theorem toDigits_head?_ne_zero {n : Nat} (positive : 0 < n) : (Nat.toDigits 10 n).head? ≠ some '0' := by
  induction n using Nat.strongRecOn with
  | ind n ih =>
    by_cases small : n < 10
    · have each : ∀ m < 10, 0 < m → [Nat.digitChar m].head? ≠ some '0' := by decide
      rw [Nat.toDigits_of_lt_base small]
      exact each n small positive
    · rw [Nat.toDigits_of_base_le (by decide) (by omega), List.head?_append_of_ne_nil _ Nat.toDigits_ne_nil]
      exact ih (n / 10) (by omega) (by omega)

/-- Decimal digits are read as the number they were written for; a zero in front
would make them octal, and only the number zero has one. -/
theorem numeral?_toDigits (n : Nat) : numeral? (Nat.toDigits 10 n) = some n := by
  by_cases zero : n = 0
  · subst zero
    rfl
  · have value : Nat.ofDigitChars 10 (Nat.toDigits 10 n) 0 = n :=
      Nat.ofDigitChars_toDigits (by decide) (by decide)
    have head := toDigits_head?_ne_zero (Nat.pos_of_ne_zero zero)
    unfold numeral?
    split
    · next empty => exact absurd empty Nat.toDigits_ne_nil
    · next digits octal =>
      rw [octal] at head
      exact absurd rfl head
    · rw [value]

theorem spelt_nat (n : Nat) : Spelt False (toString n) 4 (.int n) := by
  refine ⟨[.number (Nat.toDigits 10 n)], fun rest ends => ?_, fun _ => .number (numeral?_toDigits n), False.elim⟩
  rw [Nat.toString_eq_repr, Nat.repr_eq_ofList_toDigits, String.toList_ofList]
  have digits : ∀ d ∈ Nat.toDigits 10 n, d.isDigit = true := fun d member =>
    Nat.isDigit_of_mem_toDigits (by decide) (by decide) member
  cases parted : Nat.toDigits 10 n with
  | nil => exact absurd parted Nat.toDigits_ne_nil
  | cons c cs =>
    rw [parted] at digits
    rw [lex_number digits ends]
    rfl

theorem spelt_literal {body : String} (closed : Closed body.toList) :
    Spelt False ("\"" ++ body ++ "\"") 4 (.str body.toList) := by
  refine ⟨[.literal body.toList], fun rest ends => ?_, fun _ => .literal, False.elim⟩
  have text : ("\"" ++ body ++ "\"").toList ++ rest = '"' :: (body.toList ++ '"' :: rest) := by simp
  rw [text, lex_literal closed]
  rfl

/-- In parentheses any expression can be an operand. -/
theorem spelt_paren {called : Prop} {text : String} {e : Expr} (spelt : Spelt called text 1 e) :
    Spelt called ("(" ++ text ++ ")") 4 e := by
  obtain ⟨ts, lexed, derives, improper⟩ := spelt
  refine ⟨_, fun rest ends => ?_, fun free => .paren (derives free), fun bad proper =>
    improper bad proper.of_cons.of_append.1⟩
  have shape : ("(" ++ text ++ ")").toList ++ rest = '(' :: (text.toList ++ ')' :: rest) := by simp
  rw [shape, lex_leftParen, lexed _ (ends_cons (by decide)), lex_rightParen]
  simp [Function.comp_def]

/-- Operands that bind as tightly as calls can stand on either side of an operator. -/
theorem spelt_binary {called called' : Prop} {op : Operator} {l r : String} {left right : Expr}
    (first : Spelt called l 4 left) (second : Spelt called' r 4 right) :
    Spelt (called ∨ called') (l ++ " " ++ op.symbol ++ " " ++ r) 1 (.binary op left right) := by
  obtain ⟨ls, leftLexed, leftDerives, leftImproper⟩ := first
  obtain ⟨rs, rightLexed, rightDerives, rightImproper⟩ := second
  have bound : 1 ≤ precedence op ∧ precedence op ≤ 3 := by cases op <;> decide
  refine ⟨ls ++ .op op :: rs, fun rest ends => ?_, fun free => ?_, fun bad proper => ?_⟩
  · have shape : (l ++ " " ++ op.symbol ++ " " ++ r).toList ++ rest =
        l.toList ++ ' ' :: (op.symbol.toList ++ ' ' :: (r.toList ++ rest)) := by simp
    rw [shape, leftLexed _ (ends_cons (by decide)), lex_space, lex_operator, rightLexed rest ends]
    simp [Function.comp_def]
  · obtain ⟨leftFree, rightFree⟩ := not_or.mp free
    have whole : Derives (.expr (precedence op) (.binary op left right)) (ls ++ .op op :: rs) :=
      .binary ((leftDerives leftFree).loosen (by omega)) ((rightDerives rightFree).loosen (by omega))
    exact whole.loosen bound.1
  · obtain ⟨before, behind⟩ := proper.of_append
    exact bad.elim (leftImproper · before) (rightImproper · behind.of_cons)

/-- Arguments of a call, spelled one by one. -/
inductive SpeltAll : Prop → List String → List Expr → Prop where
  | nil : SpeltAll False [] []
  | cons {called called' : Prop} {text : String} {texts : List String} {e : Expr} {es : List Expr}
      (first : Spelt called text 1 e) (others : SpeltAll called' texts es) :
      SpeltAll (called ∨ called') (text :: texts) (e :: es)

/-- Arguments with commas between them. -/
theorem lexed_args {called : Prop} {texts : List String} {es : List Expr} (spelt : SpeltAll called texts es) :
    ∃ ts, Lexed (", ".intercalate texts).toList ts ∧ (¬ called → Derives (.args es) ts) ∧
      (called → ¬ Proper ts) := by
  induction spelt with
  | nil => exact ⟨[], fun rest _ => by simp, fun _ => .none, False.elim⟩
  | @cons called called' text texts e es first others ih =>
    obtain ⟨ts, lexed, derives, improper⟩ := first
    cases others with
    | nil =>
      refine ⟨ts, by simpa using lexed, fun free => .last (derives (free ∘ .inl)), fun bad => ?_⟩
      exact improper (bad.resolve_right id)
    | @cons _ _ text' texts' e' es' second third =>
      obtain ⟨us, later, more, improper'⟩ := ih
      refine ⟨ts ++ .comma :: us, fun rest ends => ?_, fun free => ?_, fun bad proper => ?_⟩
      · have shape : (", ".intercalate (text :: text' :: texts')).toList ++ rest =
            text.toList ++ ',' :: ' ' :: ((", ".intercalate (text' :: texts')).toList ++ rest) := by
          rw [String.intercalate_cons_cons]
          simp
        rw [shape, lexed _ (ends_cons (by decide)), lex_comma, lex_space, later rest ends]
        simp [Function.comp_def]
      · exact .more (derives (free ∘ .inl)) (more (free ∘ .inr))
      · obtain ⟨before, behind⟩ := proper.of_append
        exact bad.elim (improper · before) (improper' · behind.of_cons)

/-- A call, be it of a name or of a keyword. -/
theorem spelt_call {called : Prop} {name : String} {texts : List String} {es : List Expr} (ident : IsIdent name)
    (other : name ≠ "if" ∧ name ≠ "return") (spelt : SpeltAll called texts es) :
    Spelt (name ∈ keywords ∨ called) (name ++ "(" ++ ", ".intercalate texts ++ ")") 4 (.call (.ident name) es) := by
  obtain ⟨ts, lexed, derives, improper⟩ := lexed_args spelt
  refine ⟨[.word name] ++ .leftParen :: (ts ++ [.rightParen]), fun rest ends => ?_, fun free => ?_,
    fun bad proper => ?_⟩
  · have shape : (name ++ "(" ++ ", ".intercalate texts ++ ")").toList ++ rest =
        name.toList ++ '(' :: ((", ".intercalate texts).toList ++ ')' :: rest) := by
      simp only [String.toList_append, List.append_assoc]
      rfl
    rw [shape, lex_word ident (ends_cons (by decide)), lex_leftParen, lexed _ (ends_cons (by decide)),
      lex_rightParen]
    simp [Function.comp_def]
  · obtain ⟨nameFree, argsFree⟩ := not_or.mp free
    exact .call (.ident nameFree) (derives argsFree)
  · rcases bad with keyword | inside
    · exact not_proper_call ⟨keyword, other⟩ _ proper
    · exact improper inside proper.of_cons.of_cons.of_append.1

theorem toList_line (depth : Nat) (text : String) :
    (line depth text).toList = List.replicate (4 * depth) ' ' ++ (text.toList ++ ['\n']) := by
  have indent : (String.join (List.replicate depth "    ")).toList = List.replicate (4 * depth) ' ' := by
    rw [String.toList_join]
    induction depth with
    | zero => rfl
    | succ depth ih =>
      rw [List.replicate_succ, List.flatMap_cons, ih, Nat.mul_succ, Nat.add_comm, List.replicate_add]
      rfl
  rw [line, String.toList_append, String.toList_append, indent, List.append_assoc]
  rfl

theorem lex_indent (n : Nat) (cs : List Char) : lex (List.replicate n ' ' ++ cs) = lex cs := by
  induction n with
  | zero => rfl
  | succ n ih => rw [List.replicate_succ, List.cons_append, lex_space, ih]

/-- Indentation is passed over. -/
theorem lex_line (depth : Nat) (text : String) (cs : List Char) :
    lex ((line depth text).toList ++ cs) = lex (text.toList ++ '\n' :: cs) := by
  rw [toList_line, List.append_assoc, lex_indent, List.append_assoc]
  rfl

/-- The next token does not go on with a branch. -/
def NoElse (ts : List Tok) : Prop := ts.head? ≠ some (.word "else")

/-- A text of whole lines whose tokens are these statements, whatever follows, unless a
keyword is called in them. -/
def Laid (called : Prop) (text : String) (ss : List Stmt) : Prop :=
  ∃ ts, (∀ cs, lex (text.toList ++ cs) = (lex cs).map (ts ++ ·)) ∧
    (¬ called → ∀ rest, NoElse rest → NoElse (ts ++ rest) ∧ Parses (.stmts ss) (ts ++ rest) rest) ∧
    (called → ¬ Proper ts)

theorem Laid.congr {called other : Prop} {text : String} {ss : List Stmt} (laid : Laid called text ss)
    (same : called ↔ other) : Laid other text ss := by
  rwa [← propext same]

theorem Parses.append {xs ys : List Stmt} {input middle rest : List Tok}
    (first : Parses (.stmts xs) input middle) (second : Parses (.stmts ys) middle rest) :
    Parses (.stmts (xs ++ ys)) input rest := by
  induction xs generalizing input with
  | nil =>
    cases first
    exact second
  | cons x xs ih =>
    cases first with
    | cons head others => exact .cons head (ih others)

theorem laid_nil : Laid False "" [] :=
  ⟨[], fun cs => by simp, fun _ rest noElse => ⟨noElse, .nil⟩, False.elim⟩

/-- Statements one behind the other. No statement starts with the word that would make an
alternative of what comes before it. -/
theorem Laid.append {called called' : Prop} {text text' : String} {xs ys : List Stmt}
    (first : Laid called text xs) (second : Laid called' text' ys) :
    Laid (called ∨ called') (text ++ text') (xs ++ ys) := by
  obtain ⟨ts, lexed, parses, improper⟩ := first
  obtain ⟨us, lexed', parses', improper'⟩ := second
  refine ⟨ts ++ us, fun cs => ?_, fun free rest noElse => ?_, fun bad proper => ?_⟩
  · rw [String.toList_append, List.append_assoc, lexed, lexed']
    simp [Function.comp_def]
  · obtain ⟨apart, later⟩ := parses' (free ∘ .inr) rest noElse
    obtain ⟨front, earlier⟩ := parses (free ∘ .inl) (us ++ rest) apart
    rw [List.append_assoc]
    exact ⟨front, earlier.append later⟩
  · exact bad.elim (improper · proper.of_append.1) (improper' · proper.of_append.2)

/-- One line that is one statement and does not start with `else`. -/
theorem laid_line {called : Prop} {depth : Nat} {text : String} {s : Stmt} (ts : List Tok)
    (lexed : ∀ cs, lex (text.toList ++ '\n' :: cs) = (lex cs).map (ts ++ ·))
    (parses : ¬ called → ∀ rest, NoElse (ts ++ rest) ∧ Parses (.stmt s) (ts ++ rest) rest)
    (improper : called → ¬ Proper ts) : Laid called (line depth text) [s] :=
  ⟨ts, fun cs => by rw [lex_line, lexed],
    fun free rest _ => ⟨(parses free rest).1, .cons (parses free rest).2 .nil⟩, improper⟩

theorem lex_typeName (type : ValueType) (cs : List Char) :
    lex ((typeName type).toList ++ ' ' :: cs) = (lex cs).map (typeTokens type ++ ·) := by
  cases type with
  | int =>
    rw [typeName, lex_word (isIdent_fixed "int" (by decide)) (ends_cons (by decide)), lex_space]
    rfl
  | str =>
    have shape : (typeName .str).toList ++ ' ' :: cs = "char".toList ++ '*' :: ' ' :: cs := rfl
    rw [shape, lex_word (isIdent_fixed "char" (by decide)) (ends_cons (by decide)), lex_star]
    simp [typeTokens, Function.comp_def]

theorem noElse_type (type : ValueType) (rest : List Tok) : NoElse (typeTokens type ++ rest) := by
  cases type <;> simp [NoElse, typeTokens]

theorem noElse_derives {e : Expr} {level : Nat} {ts rest : List Tok}
    (derives : Derives (.expr level e) ts) : NoElse (ts ++ rest) := by
  obtain ⟨t, us, rfl, opens⟩ := opens_of_derives derives level e rfl
  intro same
  rw [List.cons_append, List.head?_cons, Option.some.injEq] at same
  subst same
  exact opens (by decide)

theorem laid_declare {depth : Nat} {type : ValueType} {name : String} (ident : IsIdent name)
    (free : name ∉ keywords) :
    Laid False (line depth (typeName type ++ " " ++ name ++ ";")) [.declare type name none] := by
  refine laid_line (typeTokens type ++ [.word name, .semicolon]) (fun cs => ?_) (fun _ rest => ?_) False.elim
  · have shape : (typeName type ++ " " ++ name ++ ";").toList ++ '\n' :: cs =
        (typeName type).toList ++ ' ' :: (name.toList ++ ';' :: '\n' :: cs) := by simp
    rw [shape, lex_typeName, lex_word ident (ends_cons (by decide)), lex_semicolon, lex_newline]
    simp [Function.comp_def]
  · rw [List.append_assoc]
    exact ⟨noElse_type type _, .declare free⟩

/-- A declaration with an initial value. -/
theorem laid_initialise {called : Prop} {depth : Nat} {type : ValueType} {name text : String} {value : Expr}
    (ident : IsIdent name) (free : name ∉ keywords) (spelt : Spelt called text 1 value) :
    Laid called (line depth (typeName type ++ " " ++ name ++ " = " ++ text ++ ";"))
      [.declare type name (some value)] := by
  obtain ⟨ts, lexed, derives, improper⟩ := spelt
  refine laid_line (typeTokens type ++ .word name :: .assign :: (ts ++ [.semicolon]))
    (fun cs => ?_) (fun good rest => ?_) fun bad proper => ?_
  · have shape : (typeName type ++ " " ++ name ++ " = " ++ text ++ ";").toList ++ '\n' :: cs =
        (typeName type).toList ++ ' ' :: (name.toList ++ ' ' :: '=' :: ' ' ::
          (text.toList ++ ';' :: '\n' :: cs)) := by simp
    rw [shape, lex_typeName, lex_word ident (ends_cons (by decide)), lex_space, lex_assign,
      lexed _ (ends_cons (by decide)), lex_semicolon, lex_newline]
    simp [Function.comp_def]
  · rw [List.append_assoc, List.cons_append, List.cons_append, List.append_assoc]
    exact ⟨noElse_type type _, .initialise free (derives good)⟩
  · exact improper bad proper.of_append.2.of_cons.of_cons.of_append.1

theorem laid_assign {called : Prop} {depth : Nat} {name text : String} {value : Expr} (ident : IsIdent name)
    (free : name ∉ keywords) (spelt : Spelt called text 1 value) :
    Laid called (line depth (name ++ " = " ++ text ++ ";")) [.assign name value] := by
  obtain ⟨ts, lexed, derives, improper⟩ := spelt
  refine laid_line (.word name :: .assign :: (ts ++ [.semicolon])) (fun cs => ?_) (fun good rest => ?_)
    fun bad proper => improper bad proper.of_cons.of_cons.of_append.1
  · have shape : (name ++ " = " ++ text ++ ";").toList ++ '\n' :: cs =
        name.toList ++ ' ' :: '=' :: ' ' :: (text.toList ++ ';' :: '\n' :: cs) := by simp
    rw [shape, lex_word ident (ends_cons (by decide)), lex_space, lex_assign,
      lexed _ (ends_cons (by decide)), lex_semicolon, lex_newline]
    simp [Function.comp_def]
  · rw [List.cons_append, List.cons_append, List.append_assoc]
    refine ⟨fun same => ?_, .assign free (derives good)⟩
    cases same
    exact free (by decide)

theorem laid_expr {called : Prop} {depth : Nat} {text : String} {value : Expr} (spelt : Spelt called text 1 value) :
    Laid called (line depth (text ++ ";")) [.expr value] := by
  obtain ⟨ts, lexed, derives, improper⟩ := spelt
  refine laid_line (ts ++ [.semicolon]) (fun cs => ?_) (fun good rest => ?_)
    fun bad proper => improper bad proper.of_append.1
  · have shape : (text ++ ";").toList ++ '\n' :: cs = text.toList ++ ';' :: '\n' :: cs := by simp
    rw [shape, lexed _ (ends_cons (by decide)), lex_semicolon, lex_newline]
    simp [Function.comp_def]
  · rw [List.append_assoc]
    exact ⟨noElse_derives (derives good), .expr (derives good)⟩

theorem laid_ret {called : Prop} {depth : Nat} {text : String} {value : Expr} (spelt : Spelt called text 1 value) :
    Laid called (line depth ("return " ++ text ++ ";")) [.ret value] := by
  obtain ⟨ts, lexed, derives, improper⟩ := spelt
  refine laid_line (.word "return" :: (ts ++ [.semicolon])) (fun cs => ?_) (fun good rest => ?_)
    fun bad proper => improper bad proper.of_cons.of_append.1
  · have shape : ("return " ++ text ++ ";").toList ++ '\n' :: cs =
        "return".toList ++ ' ' :: (text.toList ++ ';' :: '\n' :: cs) := by simp
    rw [shape, lex_word (isIdent_fixed "return" (by decide)) (ends_cons (by decide)), lex_space,
      lexed _ (ends_cons (by decide)), lex_semicolon, lex_newline]
    simp [Function.comp_def]
  · rw [List.cons_append, List.append_assoc]
    exact ⟨by simp [NoElse], .ret (derives good)⟩

/-- A comment lays out nothing. -/
theorem laid_comment {depth : Nat} {text : String} (oneLine : '\n' ∉ text.toList) :
    Laid False (line depth ("//" ++ text)) [] := by
  refine ⟨[], fun cs => ?_, fun _ rest noElse => ⟨noElse, .nil⟩, False.elim⟩
  have shape : ("//" ++ text).toList ++ '\n' :: cs = '/' :: '/' :: (text.toList ++ '\n' :: cs) := by simp
  rw [lex_line, shape, lex_comment oneLine]
  simp

theorem lex_closing (depth : Nat) (cs : List Char) :
    lex ((line depth r"}").toList ++ cs) = (lex cs).map (.rightBrace :: ·) := by
  have shape : r"}".toList ++ '\n' :: cs = '}' :: '\n' :: cs := rfl
  rw [lex_line, shape, lex_rightBrace, lex_newline]

/-- A block lays out its statements between two lines with a brace each. -/
theorem laid_block {called : Prop} {depth : Nat} {text : String} {body : List Stmt}
    (laid : Laid called text body) :
    Laid called (line depth r"{" ++ text ++ line depth r"}") [.block body] := by
  obtain ⟨ts, lexed, parses, improper⟩ := laid
  refine ⟨.leftBrace :: (ts ++ [.rightBrace]), fun cs => ?_, fun good rest _ => ⟨by simp [NoElse], ?_⟩,
    fun bad proper => improper bad proper.of_cons.of_append.1⟩
  · have opening : ∀ cs, r"{".toList ++ '\n' :: cs = '{' :: '\n' :: cs := fun cs => rfl
    simp only [String.toList_append, List.append_assoc]
    rw [lex_line, opening, lex_leftBrace, lex_newline, lexed, lex_closing]
    simp [Function.comp_def]
  · have inside := (parses good (.rightBrace :: rest) (by simp [NoElse])).2
    rw [List.cons_append, List.append_assoc]
    exact .cons (.block inside) .nil

/-- The line that opens a branch. -/
theorem lex_condition {depth : Nat} {text : String} {ts : List Tok} (lexed : Lexed text.toList ts)
    (cs : List Char) :
    lex ((line depth ("if (" ++ text ++ r") {")).toList ++ cs) =
      (lex cs).map ((.word "if" :: .leftParen :: (ts ++ [.rightParen, .leftBrace])) ++ ·) := by
  have shape : ("if (" ++ text ++ r") {").toList ++ '\n' :: cs =
      "if".toList ++ ' ' :: '(' :: (text.toList ++ ')' :: ' ' :: '{' :: '\n' :: cs) := by simp
  rw [lex_line, shape, lex_word (isIdent_fixed "if" (by decide)) (ends_cons (by decide)), lex_space,
    lex_leftParen, lexed _ (ends_cons (by decide)), lex_rightParen, lex_space, lex_leftBrace, lex_newline]
  simp [Function.comp_def]

theorem laid_branch {called called' : Prop} {depth : Nat} {test text : String} {condition : Expr}
    {yes : List Stmt} (spelt : Spelt called test 1 condition) (laid : Laid called' text yes) :
    Laid (called ∨ called') (line depth ("if (" ++ test ++ r") {") ++ text ++ "" ++ line depth r"}")
      [.branch condition yes none] := by
  obtain ⟨ts, lexed, derives, improper⟩ := spelt
  obtain ⟨us, lines, parses, improper'⟩ := laid
  refine ⟨.word "if" :: .leftParen :: (ts ++ .rightParen :: .leftBrace :: (us ++ [.rightBrace])),
    fun cs => ?_, fun good rest noElse => ⟨by simp [NoElse], ?_⟩, fun bad proper => ?_⟩
  · simp only [String.toList_append, String.append_empty, List.append_assoc]
    rw [lex_condition lexed, lines, lex_closing]
    simp [Function.comp_def]
  · have inside := (parses (good ∘ .inr) (.rightBrace :: rest) (by simp [NoElse])).2
    simp only [List.cons_append, List.append_assoc, List.nil_append]
    exact .cons (.branch (derives (good ∘ .inl)) inside noElse) .nil
  · obtain ⟨tested, behind⟩ := proper.of_cons.of_cons.of_append
    exact bad.elim (improper · tested) (improper' · behind.of_cons.of_cons.of_append.1)

/-- A branch with an alternative, which belongs to it and not to a branch inside its first block. -/
theorem laid_choice {called called' called'' : Prop} {depth : Nat} {test text other : String} {condition : Expr}
    {yes no : List Stmt} (spelt : Spelt called test 1 condition) (laid : Laid called' text yes)
    (laid' : Laid called'' other no) :
    Laid (called ∨ called' ∨ called'') (line depth ("if (" ++ test ++ r") {") ++ text ++
        (line depth r"} else {" ++ other) ++ line depth r"}")
      [.branch condition yes (some no)] := by
  obtain ⟨ts, lexed, derives, improper⟩ := spelt
  obtain ⟨us, lines, parses, improper'⟩ := laid
  obtain ⟨vs, lines', parses', improper''⟩ := laid'
  have middle : ∀ cs, lex ((line depth r"} else {").toList ++ cs) =
      (lex cs).map ([.rightBrace, .word "else", .leftBrace] ++ ·) := by
    intro cs
    have shape : r"} else {".toList ++ '\n' :: cs =
        '}' :: ' ' :: ("else".toList ++ ' ' :: '{' :: '\n' :: cs) := rfl
    rw [lex_line, shape, lex_rightBrace, lex_space,
      lex_word (isIdent_fixed "else" (by decide)) (ends_cons (by decide)), lex_space, lex_leftBrace,
      lex_newline]
    simp [Function.comp_def]
  refine ⟨.word "if" :: .leftParen :: (ts ++ .rightParen :: .leftBrace :: (us ++ .rightBrace ::
    .word "else" :: .leftBrace :: (vs ++ [.rightBrace]))), fun cs => ?_,
    fun good rest _ => ⟨by simp [NoElse], ?_⟩, fun bad proper => ?_⟩
  · simp only [String.toList_append, List.append_assoc]
    rw [lex_condition lexed, lines, middle, lines', lex_closing]
    simp [Function.comp_def]
  · obtain ⟨tested, bodies⟩ := not_or.mp good
    have untaken := (parses' (bodies ∘ .inr) (.rightBrace :: rest) (by simp [NoElse])).2
    have taken := (parses (bodies ∘ .inl)
      (.rightBrace :: .word "else" :: .leftBrace :: (vs ++ .rightBrace :: rest)) (by simp [NoElse])).2
    simp only [List.cons_append, List.append_assoc, List.nil_append]
    exact .cons (.choice (derives tested) taken untaken) .nil
  · obtain ⟨tested, behind⟩ := proper.of_cons.of_cons.of_append
    obtain ⟨taken, untaken⟩ := behind.of_cons.of_cons.of_append
    exact bad.elim (improper · tested) fun inside => inside.elim (improper' · taken)
      (improper'' · untaken.of_cons.of_cons.of_cons.of_append.1)

/-- A text of whole lines whose tokens are these items, whatever items follow, unless a
keyword is called in them. -/
def Filed (called : Prop) (text : String) (items : List Item) : Prop :=
  ∃ ts, (∀ cs, lex (text.toList ++ cs) = (lex cs).map (ts ++ ·)) ∧
    (¬ called → ∀ more rest, File more rest → File (items ++ more) (ts ++ rest)) ∧ (called → ¬ Proper ts)

theorem Filed.congr {called other : Prop} {text : String} {items : List Item} (filed : Filed called text items)
    (same : called ↔ other) : Filed other text items := by
  rwa [← propext same]

theorem filed_nil : Filed False "" [] := ⟨[], fun cs => by simp, fun _ _ _ file => file, False.elim⟩

theorem filed_newline : Filed False "\n" [] := by
  refine ⟨[], fun cs => ?_, fun _ _ _ file => file, False.elim⟩
  have shape : "\n".toList ++ cs = '\n' :: cs := rfl
  rw [shape, lex_newline]
  simp

/-- Items one behind the other make a file. -/
theorem Filed.append {called called' : Prop} {text text' : String} {items items' : List Item}
    (first : Filed called text items) (second : Filed called' text' items') :
    Filed (called ∨ called') (text ++ text') (items ++ items') := by
  obtain ⟨ts, lexed, files, improper⟩ := first
  obtain ⟨us, lexed', files', improper'⟩ := second
  refine ⟨ts ++ us, fun cs => ?_, fun good more rest file => ?_, fun bad proper => ?_⟩
  · rw [String.toList_append, List.append_assoc, lexed, lexed']
    simp [Function.comp_def]
  · rw [List.append_assoc, List.append_assoc]
    exact files (good ∘ .inl) _ _ (files' (good ∘ .inr) more rest file)
  · exact bad.elim (improper · proper.of_append.1) (improper' · proper.of_append.2)

theorem lex_params {params : List String} (idents : ∀ name ∈ params, IsIdent name) (cs : List Char) :
    lex ((", ".intercalate (params.map ("int " ++ ·))).toList ++ ')' :: cs) =
      (lex cs).map ((paramTokens params ++ [.rightParen]) ++ ·) := by
  have param : ∀ name rest, ("int " ++ name).toList ++ rest = "int".toList ++ ' ' :: (name.toList ++ rest) :=
    fun name rest => by simp
  induction params using paramTokens.induct with
  | case1 =>
    have shape : (", ".intercalate ([].map ("int " ++ ·))).toList ++ ')' :: cs = ')' :: cs := rfl
    rw [shape, lex_rightParen]
    rfl
  | case2 name =>
    rw [List.map_cons, List.map_nil, String.intercalate_singleton, param,
      lex_word (isIdent_fixed "int" (by decide)) (ends_cons (by decide)), lex_space,
      lex_word (idents name (by simp)) (ends_cons (by decide)), lex_rightParen]
    simp [paramTokens, Function.comp_def]
  | case3 name other names ih =>
    have shape : (", ".intercalate ((name :: other :: names).map ("int " ++ ·))).toList ++ ')' :: cs =
        ("int " ++ name).toList ++ ',' :: ' ' ::
          ((", ".intercalate ((other :: names).map ("int " ++ ·))).toList ++ ')' :: cs) := by
      rw [List.map_cons, List.map_cons, String.intercalate_cons_cons]
      simp
    rw [shape, param, lex_word (isIdent_fixed "int" (by decide)) (ends_cons (by decide)), lex_space,
      lex_word (idents name (by simp)) (ends_cons (by decide)), lex_comma, lex_space,
      ih fun name member => idents name (List.mem_cons_of_mem _ member)]
    simp [paramTokens, Function.comp_def]

/-- A signature is read as the tokens of its name and its parameters. -/
theorem lex_signature {f : Function} (idents : ∀ name ∈ f.name :: f.params, IsIdent name)
    (cs : List Char) :
    lex (f.signature.toList ++ cs) = (lex cs).map (signatureTokens f.name f.params ++ ·) := by
  have shape : f.signature.toList ++ cs = "int".toList ++ ' ' :: (f.name.toList ++ '(' ::
      ((", ".intercalate (f.params.map ("int " ++ ·))).toList ++ ')' :: cs)) := by
    rw [Function.signature]
    simp only [String.toList_append, List.append_assoc]
    rfl
  rw [shape, lex_word (isIdent_fixed "int" (by decide)) (ends_cons (by decide)), lex_space,
    lex_word (idents f.name (by simp)) (ends_cons (by decide)), lex_leftParen,
    lex_params fun name member => idents name (by simp [member])]
  simp [signatureTokens, Function.comp_def]

theorem filed_prototype {f : Function} (idents : ∀ name ∈ f.name :: f.params, IsIdent name)
    (free : ∀ name ∈ f.name :: f.params, name ∉ keywords) :
    Filed False f.prototype [.prototype f.name f.params] := by
  refine ⟨signatureTokens f.name f.params ++ [.semicolon], fun cs => ?_, fun _ more rest file => ?_, False.elim⟩
  · have shape : (f.signature ++ ";").toList ++ '\n' :: cs = f.signature.toList ++ ';' :: '\n' :: cs := by
      simp
    rw [Function.prototype, lex_line, shape, lex_signature idents, lex_semicolon, lex_newline]
    simp [Function.comp_def]
  · rw [List.append_assoc]
    exact .prototype free file

/-- A definition whose body is laid out is an item of a file. -/
theorem filed_definition {called : Prop} {f : Function} {body : List Stmt}
    (idents : ∀ name ∈ f.name :: f.params, IsIdent name)
    (free : ∀ name ∈ f.name :: f.params, name ∉ keywords) (laid : Laid called (Stmt.renderAll 1 f.body) body) :
    Filed called f.render [.definition f.name f.params body] := by
  obtain ⟨ts, lexed, parses, improper⟩ := laid
  refine ⟨signatureTokens f.name f.params ++ .leftBrace :: (ts ++ [.rightBrace]), fun cs => ?_,
    fun good more rest file => ?_, fun bad proper => improper bad proper.of_append.2.of_cons.of_append.1⟩
  · have opening : ∀ cs, (f.signature ++ r" {").toList ++ '\n' :: cs =
        f.signature.toList ++ ' ' :: '{' :: '\n' :: cs := fun cs => by simp
    have shape : f.render.toList ++ cs = '\n' :: ((line 0 (f.signature ++ r" {")).toList ++
        ((Stmt.renderAll 1 f.body).toList ++ '}' :: '\n' :: cs)) := by
      rw [Function.render]
      simp only [String.toList_append, List.append_assoc]
      rfl
    rw [shape, lex_newline, lex_line, opening, lex_signature idents, lex_space, lex_leftBrace,
      lex_newline, lexed, lex_rightBrace, lex_newline]
    simp [Function.comp_def]
  · have inside := (parses good (.rightBrace :: rest) (by simp [NoElse])).2
    simp only [List.append_assoc, List.cons_append, List.nil_append]
    exact .definition free inside file

end ImpToC.C.Grammar
