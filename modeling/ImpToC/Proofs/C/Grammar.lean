import ImpToC.C.Reserved
import ImpToC.Operator
import ImpToC.ValueType

/-!
C as it is read, as far as emitted programs need it: tokens, trees, and the grammar
that relates the two. Comparison binds less than addition, addition less than
multiplication, and a call most; all of them group to the left. Nothing here knows
how emitted text is laid out.
-/
namespace ImpToC.C.Grammar

/-- Keywords are words like any other; only the grammar tells them apart. The star of
a pointer is the one of multiplication. -/
inductive Tok where
  | word (text : String)
  | number (digits : List Char)
  | literal (body : List Char)
  | op (op : Operator)
  | assign | comma | semicolon | leftParen | rightParen | leftBrace | rightBrace
  deriving DecidableEq, Repr

inductive Expr where
  | ident (name : String)
  | int (value : Int)
  /-- A string literal, by what stands between its quotes. -/
  | str (body : List Char)
  | binary (op : Operator) (left right : Expr)
  | call (callee : Expr) (args : List Expr)
  deriving Repr

inductive Stmt where
  | declare (type : ValueType) (name : String) (value : Option Expr)
  | assign (name : String) (value : Expr)
  | expr (value : Expr)
  | ret (value : Expr)
  | branch (condition : Expr) (consequence : List Stmt) (alternative : Option (List Stmt))
  | block (body : List Stmt)
  deriving Repr

/-- What stands at the top level. All functions and their parameters are integers. -/
inductive Item where
  | prototype (name : String) (params : List String)
  | definition (name : String) (params : List String) (body : List Stmt)
  deriving Repr

/-- The value of a number; one that starts with a zero is octal. -/
def numeral? : List Char → Option Nat
  | [] => none
  | '0' :: digits =>
    if digits.all fun c => '0' ≤ c && c ≤ '7' then some (Nat.ofDigitChars 8 digits 0) else none
  | digits => some (Nat.ofDigitChars 10 digits 0)

def precedence : Operator → Nat
  | .eq | .ne => 1
  | .add | .sub => 2
  | .mul | .div => 3

/-- What a run of tokens can be: an expression whose operators outside of parentheses
bind at least at a level, or the arguments of a call. Calls have level four. -/
inductive Phrase where
  | expr (level : Nat) (e : Expr)
  | args (es : List Expr)

inductive Derives : Phrase → List Tok → Prop where
  | ident {name : String} (free : name ∉ keywords) : Derives (.expr 4 (.ident name)) [.word name]
  | number {digits : List Char} {value : Nat} (read : numeral? digits = some value) :
      Derives (.expr 4 (.int value)) [.number digits]
  | literal {body : List Char} : Derives (.expr 4 (.str body)) [.literal body]
  | paren {e : Expr} {ts : List Tok} (inside : Derives (.expr 1 e) ts) :
      Derives (.expr 4 e) (.leftParen :: (ts ++ [.rightParen]))
  | call {callee : Expr} {args : List Expr} {fs ts : List Tok}
      (function : Derives (.expr 4 callee) fs) (given : Derives (.args args) ts) :
      Derives (.expr 4 (.call callee args)) (fs ++ .leftParen :: (ts ++ [.rightParen]))
  | binary {op : Operator} {left right : Expr} {ls rs : List Tok}
      (first : Derives (.expr (precedence op) left) ls)
      (second : Derives (.expr (precedence op + 1) right) rs) :
      Derives (.expr (precedence op) (.binary op left right)) (ls ++ .op op :: rs)
  | tighter {level : Nat} {e : Expr} {ts : List Tok} (tight : Derives (.expr (level + 1) e) ts) :
      Derives (.expr level e) ts
  | none : Derives (.args []) []
  | last {e : Expr} {ts : List Tok} (only : Derives (.expr 1 e) ts) : Derives (.args [e]) ts
  | more {e e' : Expr} {es : List Expr} {ts us : List Tok} (first : Derives (.expr 1 e) ts)
      (others : Derives (.args (e' :: es)) us) :
      Derives (.args (e :: e' :: es)) (ts ++ .comma :: us)

def typeTokens : ValueType → List Tok
  | .int => [.word "int"]
  | .str => [.word "char", .op .mul]

inductive Part where
  | stmt (s : Stmt)
  | stmts (ss : List Stmt)

/-- Statements at the front of some tokens, and the tokens after them. An `else`
belongs to the `if` before it. -/
inductive Parses : Part → List Tok → List Tok → Prop where
  | declare {type : ValueType} {name : String} {rest : List Tok} (free : name ∉ keywords) :
      Parses (.stmt (.declare type name none)) (typeTokens type ++ .word name :: .semicolon :: rest) rest
  | initialise {type : ValueType} {name : String} {value : Expr} {ts rest : List Tok}
      (free : name ∉ keywords) (given : Derives (.expr 1 value) ts) :
      Parses (.stmt (.declare type name (some value)))
        (typeTokens type ++ .word name :: .assign :: (ts ++ .semicolon :: rest)) rest
  | assign {name : String} {value : Expr} {ts rest : List Tok} (free : name ∉ keywords)
      (given : Derives (.expr 1 value) ts) :
      Parses (.stmt (.assign name value)) (.word name :: .assign :: (ts ++ .semicolon :: rest)) rest
  | expr {value : Expr} {ts rest : List Tok} (given : Derives (.expr 1 value) ts) :
      Parses (.stmt (.expr value)) (ts ++ .semicolon :: rest) rest
  | ret {value : Expr} {ts rest : List Tok} (given : Derives (.expr 1 value) ts) :
      Parses (.stmt (.ret value)) (.word "return" :: (ts ++ .semicolon :: rest)) rest
  | branch {condition : Expr} {yes : List Stmt} {ts body rest : List Tok}
      (test : Derives (.expr 1 condition) ts) (taken : Parses (.stmts yes) body (.rightBrace :: rest))
      (alone : rest.head? ≠ some (.word "else")) :
      Parses (.stmt (.branch condition yes none))
        (.word "if" :: .leftParen :: (ts ++ .rightParen :: .leftBrace :: body)) rest
  | choice {condition : Expr} {yes no : List Stmt} {ts body other rest : List Tok}
      (test : Derives (.expr 1 condition) ts)
      (taken : Parses (.stmts yes) body (.rightBrace :: .word "else" :: .leftBrace :: other))
      (untaken : Parses (.stmts no) other (.rightBrace :: rest)) :
      Parses (.stmt (.branch condition yes (some no)))
        (.word "if" :: .leftParen :: (ts ++ .rightParen :: .leftBrace :: body)) rest
  | block {body : List Stmt} {inner rest : List Tok}
      (inside : Parses (.stmts body) inner (.rightBrace :: rest)) :
      Parses (.stmt (.block body)) (.leftBrace :: inner) rest
  | nil {rest : List Tok} : Parses (.stmts []) rest rest
  | cons {s : Stmt} {ss : List Stmt} {input middle rest : List Tok}
      (first : Parses (.stmt s) input middle) (others : Parses (.stmts ss) middle rest) :
      Parses (.stmts (s :: ss)) input rest

def paramTokens : List String → List Tok
  | [] => []
  | [name] => [.word "int", .word name]
  | name :: other :: names => .word "int" :: .word name :: .comma :: paramTokens (other :: names)

def signatureTokens (name : String) (params : List String) : List Tok :=
  .word "int" :: .word name :: .leftParen :: (paramTokens params ++ [.rightParen])

/-- A whole file: prototypes and definitions of functions. -/
inductive File : List Item → List Tok → Prop where
  | nil : File [] []
  | prototype {name : String} {params : List String} {items : List Item} {rest : List Tok}
      (free : ∀ word ∈ name :: params, word ∉ keywords) (others : File items rest) :
      File (.prototype name params :: items) (signatureTokens name params ++ .semicolon :: rest)
  | definition {name : String} {params : List String} {body : List Stmt} {items : List Item}
      {inner rest : List Tok} (free : ∀ word ∈ name :: params, word ∉ keywords)
      (inside : Parses (.stmts body) inner (.rightBrace :: rest)) (others : File items rest) :
      File (.definition name params body :: items)
        (signatureTokens name params ++ .leftBrace :: inner)

end ImpToC.C.Grammar
