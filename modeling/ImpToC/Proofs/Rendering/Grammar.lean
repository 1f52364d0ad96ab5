import ImpToC.Token.Lexer
import ImpToC.Tree

/-!
The language as it is written: which runs of tokens stand for a program, and which
texts spell these tokens. Comparison binds less than addition, addition less than
multiplication, and a call most; all of them group to the left. Parentheses may stand
around any expression, and the semicolon behind an expression or a `print` may be left
out. Of the reader only its digits and its blanks are used, and the places in a tree
play no part.
-/
namespace ImpToC.Rendering

/-- A token without its place. -/
structure Shape where
  kind : Token.Kind
  literal : String
  deriving DecidableEq, Repr

namespace Shape

def name (word : String) : Shape := ⟨.ident, word⟩

def number (digits : String) : Shape := ⟨.int, digits⟩

def text (body : String) : Shape := ⟨.string, body⟩

def symbol (s : Symbol) : Shape := ⟨.symbol s, s.spelling⟩

def keyword (k : Keyword) : Shape := ⟨.keyword k, k.spelling⟩

/-- The characters of a token. Only a string has some that it does not keep. -/
def spelling (s : Shape) : List Char :=
  if s.kind = .string then '"' :: (s.literal.toList ++ ['"']) else s.literal.toList

end Shape

/-- The symbol of an operator. -/
def sign : Operator → Symbol
  | .add => .plus
  | .sub => .minus
  | .mul => .asterisk
  | .div => .slash
  | .eq => .equal
  | .ne => .notEqual

def precedence : Operator → Nat
  | .eq | .ne => 1
  | .add | .sub => 2
  | .mul | .div => 3

/-- A run of decimal digits and its value. -/
def Numeral (digits : String) (value : Nat) : Prop :=
  digits.toList ≠ [] ∧ (∀ c ∈ digits.toList, Lexeme.isDigit c = true) ∧
    Nat.ofDigitChars 10 digits.toList 0 = value

def names : List String → List Shape
  | [] => []
  | [word] => [.name word]
  | word :: other :: words => .name word :: .symbol .comma :: names (other :: words)

def parameters (words : List String) : List Shape :=
  .symbol .leftParen :: (names words ++ [.symbol .rightParen])

def braced (body : List Shape) : List Shape :=
  .symbol .leftBrace :: (body ++ [.symbol .rightBrace])

/-- How a statement ends. An `expression` at its end might be read on, and a `return`
that is `bare` might take what follows for its value; all else is `closed`. -/
inductive Ending where
  | closed | expression | bare
  deriving DecidableEq, Repr

/-- What may stand behind a statement among those of its block. -/
def Ending.Allows : Ending → List Shape → Prop
  | closed, _ => True
  | expression, next => ∀ s, next.head? = some s → s.kind ≠ .symbol .leftParen
  | bare, next => next = []

/-- A semicolon that is kept or left out. -/
def semicolon : Bool → List Shape
  | true => [.symbol .semicolon]
  | false => []

/-- The ending of a statement whose last part is an expression. -/
def endingOf : Bool → Ending
  | true => .closed
  | false => .expression

/-- What a run of tokens can be. The operators of an expression outside of parentheses
bind at least at its level; calls have level four. -/
inductive Phrase where
  | expr (level : Nat) (e : Expr)
  | args (es : List Expr)
  | stmt (ending : Ending) (s : Stmt)
  | stmts (ss : List Stmt)

inductive Derives : Phrase → List Shape → Prop where
  | ident {word : String} {l : Location} : Derives (.expr 4 (.ident word l)) [.name word]
  | number {digits : String} {value : Nat} {l : Location} (read : Numeral digits value) :
      Derives (.expr 4 (.int value l)) [.number digits]
  | text {body : String} {l : Location} : Derives (.expr 4 (.str body l)) [.text body]
  | paren {e : Expr} {ts : List Shape} (inside : Derives (.expr 1 e) ts) :
      Derives (.expr 4 e) (.symbol .leftParen :: (ts ++ [.symbol .rightParen]))
  | lambda {params : List String} {body : List Stmt} {l l' : Location} {ts : List Shape}
      (inside : Derives (.stmts body) ts) :
      Derives (.expr 4 (.func params (.mk body l) l')) (.keyword .func :: (parameters params ++ braced ts))
  | call {callee : Expr} {args : List Expr} {l : Location} {fs ts : List Shape}
      (function : Derives (.expr 4 callee) fs) (given : Derives (.args args) ts) :
      Derives (.expr 4 (.call callee args l))
        (fs ++ .symbol .leftParen :: (ts ++ [.symbol .rightParen]))
  | binary {op : Operator} {left right : Expr} {l : Location} {ls rs : List Shape}
      (first : Derives (.expr (precedence op) left) ls)
      (second : Derives (.expr (precedence op + 1) right) rs) :
      Derives (.expr (precedence op) (.binary op left right l)) (ls ++ .symbol (sign op) :: rs)
  | tighter {level : Nat} {e : Expr} {ts : List Shape} (tight : Derives (.expr (level + 1) e) ts) :
      Derives (.expr level e) ts
  | none : Derives (.args []) []
  | last {e : Expr} {ts : List Shape} (only : Derives (.expr 1 e) ts) : Derives (.args [e]) ts
  | more {e e' : Expr} {es : List Expr} {ts us : List Shape} (first : Derives (.expr 1 e) ts)
      (others : Derives (.args (e' :: es)) us) :
      Derives (.args (e :: e' :: es)) (ts ++ .symbol .comma :: us)
  | declare {word : String} {l : Location} :
      Derives (.stmt .closed (.declare word none l))
        [.keyword .var, .name word, .symbol .semicolon]
  | initialise {word : String} {value : Expr} {l : Location} {ts : List Shape} (kept : Bool)
      (given : Derives (.expr 1 value) ts) :
      Derives (.stmt (endingOf kept) (.declare word (some value) l))
        (.keyword .var :: .name word :: .symbol .assign :: (ts ++ semicolon kept))
  | assign {word : String} {value : Expr} {l : Location} {ts : List Shape} (kept : Bool)
      (given : Derives (.expr 1 value) ts) :
      Derives (.stmt (endingOf kept) (.assign word value l))
        (.name word :: .symbol .assign :: (ts ++ semicolon kept))
  | print {value : Expr} {l : Location} {ts : List Shape} (kept : Bool)
      (given : Derives (.expr 1 value) ts) :
      Derives (.stmt .closed (.print value l))
        (.keyword .print :: .symbol .leftParen :: (ts ++ .symbol .rightParen :: semicolon kept))
  | branch {condition : Expr} {yes : List Stmt} {l l' : Location} {ts us : List Shape}
      (test : Derives (.expr 1 condition) ts) (taken : Derives (.stmts yes) us) :
      Derives (.stmt .closed (.branch condition (.mk yes l) none l'))
        (.keyword .cond :: (ts ++ braced us))
  | choice {condition : Expr} {yes no : List Stmt} {l l' m : Location} {ts us vs : List Shape}
      (test : Derives (.expr 1 condition) ts) (taken : Derives (.stmts yes) us)
      (untaken : Derives (.stmts no) vs) :
      Derives (.stmt .closed (.branch condition (.mk yes l) (some (.mk no l')) m))
        (.keyword .cond :: (ts ++ (braced us ++ .name "else" :: braced vs)))
  | block {body : List Stmt} {l : Location} {ts : List Shape} (inside : Derives (.stmts body) ts) :
      Derives (.stmt .closed (.block (.mk body l))) (braced ts)
  | foreign {word : String} {l : Location} :
      Derives (.stmt .closed (.foreign word l))
        [.keyword .foreign, .name word, .symbol .semicolon]
  | leave {l : Location} :
      Derives (.stmt .closed (.ret none l)) [.keyword .ret, .symbol .semicolon]
  | leaveLast {l : Location} : Derives (.stmt .bare (.ret none l)) [.keyword .ret]
  | ret {value : Expr} {l : Location} {ts : List Shape} (kept : Bool)
      (given : Derives (.expr 1 value) ts) :
      Derives (.stmt (endingOf kept) (.ret (some value) l)) (.keyword .ret :: (ts ++ semicolon kept))
  | func {word : String} {params : List String} {body : List Stmt} {l l' : Location}
      {ts : List Shape} (inside : Derives (.stmts body) ts) :
      Derives (.stmt .closed (.func word params (.mk body l) l'))
        (.keyword .func :: .name word :: (parameters params ++ braced ts))
  | expr {value : Expr} {l : Location} {ts : List Shape} (kept : Bool)
      (given : Derives (.expr 1 value) ts) :
      Derives (.stmt (endingOf kept) (.expr value l)) (ts ++ semicolon kept)
  | nil : Derives (.stmts []) []
  | cons {ending : Ending} {s : Stmt} {ss : List Stmt} {ts us : List Shape}
      (first : Derives (.stmt ending s) ts) (others : Derives (.stmts ss) us)
      (allowed : ending.Allows us) : Derives (.stmts (s :: ss)) (ts ++ us)

/-- Tokens written one after another with blanks between them. -/
inductive Spaced : List Shape → List Char → Prop where
  | nil {gap : List Char} (blank : ∀ c ∈ gap, Gap.isBlank c = true) : Spaced [] gap
  | cons {s : Shape} {shapes : List Shape} {gap rest : List Char}
      (blank : ∀ c ∈ gap, Gap.isBlank c = true)
      (apart : ∀ c, rest.head? = some c → Gap.isBlank c = true) (others : Spaced shapes rest) :
      Spaced (s :: shapes) (gap ++ (s.spelling ++ rest))

end ImpToC.Rendering

namespace ImpToC

/-- The token as it is written. -/
def Token.shape (t : Token) : Rendering.Shape := ⟨t.kind, t.literal⟩

mutual

/-- A tree with all its places put at the start of the text. -/
def Expr.unplaced : Expr → Expr
  | .ident name _ => .ident name .start
  | .int value _ => .int value .start
  | .str text _ => .str text .start
  | .binary op left right _ => .binary op left.unplaced right.unplaced .start
  | .call callee args _ => .call callee.unplaced (Expr.unplacedAll args) .start
  | .func params body _ => .func params body.unplaced .start

def Expr.unplacedAll : List Expr → List Expr
  | [] => []
  | e :: es => e.unplaced :: Expr.unplacedAll es

def Expr.unplacedOption : Option Expr → Option Expr
  | none => none
  | some e => some e.unplaced

def Stmt.unplaced : Stmt → Stmt
  | .declare name value _ => .declare name (Expr.unplacedOption value) .start
  | .assign name value _ => .assign name value.unplaced .start
  | .print value _ => .print value.unplaced .start
  | .branch condition consequence alternative _ =>
    .branch condition.unplaced consequence.unplaced (Block.unplacedOption alternative) .start
  | .block body => .block body.unplaced
  | .foreign name _ => .foreign name .start
  | .ret value _ => .ret (Expr.unplacedOption value) .start
  | .func name params body _ => .func name params body.unplaced .start
  | .expr value _ => .expr value.unplaced .start

def Stmt.unplacedAll : List Stmt → List Stmt
  | [] => []
  | s :: ss => s.unplaced :: Stmt.unplacedAll ss

def Block.unplaced : Block → Block
  | .mk body _ => .mk (Stmt.unplacedAll body) .start

def Block.unplacedOption : Option Block → Option Block
  | none => none
  | some body => some body.unplaced

end

namespace Program

def unplaced (p : Program) : Program := ⟨Stmt.unplacedAll p.statements⟩

/-- A text spells tokens that stand for the program. -/
def RendersTo (p : Program) (text : String) : Prop :=
  ∃ shapes, Rendering.Derives (.stmts p.statements) shapes ∧ Rendering.Spaced shapes text.toList

end Program

end ImpToC
