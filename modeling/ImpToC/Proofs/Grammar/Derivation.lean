import Mathlib.Algebra.Ring.Nat
import ImpToC.Proofs.Rendering.Grammar

/-!
The grammar over tokens. A derivation says which tokens a construct is made of, all of
them and in order, and every place in its tree is that of one of these tokens. There are
nine forms of statements, lists have commas between their items and none at the end, and
the levels of expressions are comparison, sum, product, call and, tightest of all, what
is closed in itself. Operators group to the left.

Two consequences do not depend on the parser: the brackets of a derivation are closed in
the order in which they were opened, and each of its tokens is one that a program can
hold.
-/
namespace ImpToC

/-- The value of the digits of a token. -/
def Token.number (t : Token) : Nat := Nat.ofDigitChars 10 t.literal.toList 0

/-- A token that a program can hold: a legal one in front of the end, and no number that
needs more than a signed word of 64 bits. -/
def Token.Admissible (t : Token) : Prop :=
  t.kind ≠ .illegal ∧ t.kind ≠ .endOfFile ∧ (t.kind = .int → t.number < 2 ^ 63)

namespace Grammar

open Rendering (precedence sign)

/-- What a run of tokens can be. The operators of an expression outside of parentheses
bind at least at its level. -/
inductive Construct where
  | expr (level : Nat) (e : Expr)
  | args (es : List Expr)
  | params (names : List String)
  | block (b : Block)
  | stmt (s : Stmt)
  | stmts (ss : List Stmt)

/-- A semicolon that may be left out. -/
inductive Semicolon : List Token → Prop where
  | omitted : Semicolon []
  | written {t : Token} (kind : t.kind = .symbol .semicolon) : Semicolon [t]

inductive Derives : Construct → List Token → Prop where
  | ident {t : Token} (name : t.kind = .ident) : Derives (.expr 5 (.ident t.literal t.location)) [t]
  | number {t : Token} (digits : t.kind = .int) (fits : t.number < 2 ^ 63) :
      Derives (.expr 5 (.int t.number t.location)) [t]
  | text {t : Token} (string : t.kind = .string) : Derives (.expr 5 (.str t.literal t.location)) [t]
  | paren {e : Expr} {opening closing : Token} {ts : List Token}
      (opens : opening.kind = .symbol .leftParen) (inside : Derives (.expr 1 e) ts)
      (closes : closing.kind = .symbol .rightParen) :
      Derives (.expr 5 e) (opening :: (ts ++ [closing]))
  | lambda {params : List String} {body : Block} {func opening closing : Token} {ps bs : List Token}
      (keyword : func.kind = .keyword .func) (opens : opening.kind = .symbol .leftParen)
      (listed : Derives (.params params) ps) (closes : closing.kind = .symbol .rightParen)
      (inside : Derives (.block body) bs) :
      Derives (.expr 5 (.func params body func.location)) (func :: opening :: (ps ++ closing :: bs))
  | call {callee : Expr} {args : List Expr} {opening closing : Token} {fs ts : List Token}
      (function : Derives (.expr 4 callee) fs) (opens : opening.kind = .symbol .leftParen)
      (given : Derives (.args args) ts) (closes : closing.kind = .symbol .rightParen) :
      Derives (.expr 4 (.call callee args opening.location)) (fs ++ opening :: (ts ++ [closing]))
  | binary {op : Operator} {left right : Expr} {t : Token} {ls rs : List Token}
      (first : Derives (.expr (precedence op) left) ls) (between : t.kind = .symbol (sign op))
      (second : Derives (.expr (precedence op + 1) right) rs) :
      Derives (.expr (precedence op) (.binary op left right t.location)) (ls ++ t :: rs)
  | tighter {level : Nat} {e : Expr} {ts : List Token} (tight : Derives (.expr (level + 1) e) ts) :
      Derives (.expr level e) ts
  | noArgs : Derives (.args []) []
  | lastArg {e : Expr} {ts : List Token} (only : Derives (.expr 1 e) ts) : Derives (.args [e]) ts
  | moreArgs {e e' : Expr} {es : List Expr} {comma : Token} {ts us : List Token}
      (first : Derives (.expr 1 e) ts) (separates : comma.kind = .symbol .comma)
      (others : Derives (.args (e' :: es)) us) : Derives (.args (e :: e' :: es)) (ts ++ comma :: us)
  | noParams : Derives (.params []) []
  | lastParam {name : Token} (named : name.kind = .ident) : Derives (.params [name.literal]) [name]
  | moreParams {name comma : Token} {word : String} {words : List String} {ts : List Token}
      (named : name.kind = .ident) (separates : comma.kind = .symbol .comma)
      (others : Derives (.params (word :: words)) ts) :
      Derives (.params (name.literal :: word :: words)) (name :: comma :: ts)
  | block {body : List Stmt} {opening closing : Token} {ts : List Token}
      (opens : opening.kind = .symbol .leftBrace) (inside : Derives (.stmts body) ts)
      (closes : closing.kind = .symbol .rightBrace) :
      Derives (.block (.mk body opening.location)) (opening :: (ts ++ [closing]))
  | declare {var name ending : Token} (keyword : var.kind = .keyword .var) (named : name.kind = .ident)
      (ends : ending.kind = .symbol .semicolon) :
      Derives (.stmt (.declare name.literal none var.location)) [var, name, ending]
  | initialise {value : Expr} {var name equals : Token} {ts us : List Token}
      (keyword : var.kind = .keyword .var) (named : name.kind = .ident)
      (assigns : equals.kind = .symbol .assign) (given : Derives (.expr 1 value) ts)
      (ends : Semicolon us) :
      Derives (.stmt (.declare name.literal (some value) var.location)) (var :: name :: equals :: (ts ++ us))
  | assign {value : Expr} {name equals : Token} {ts us : List Token} (named : name.kind = .ident)
      (assigns : equals.kind = .symbol .assign) (given : Derives (.expr 1 value) ts)
      (ends : Semicolon us) :
      Derives (.stmt (.assign name.literal value name.location)) (name :: equals :: (ts ++ us))
  | print {value : Expr} {print opening closing : Token} {ts us : List Token}
      (keyword : print.kind = .keyword .print) (opens : opening.kind = .symbol .leftParen)
      (given : Derives (.expr 1 value) ts) (closes : closing.kind = .symbol .rightParen)
      (ends : Semicolon us) :
      Derives (.stmt (.print value print.location)) (print :: opening :: (ts ++ closing :: us))
  | branch {condition : Expr} {yes : Block} {cond : Token} {ts bs : List Token}
      (keyword : cond.kind = .keyword .cond) (test : Derives (.expr 1 condition) ts)
      (taken : Derives (.block yes) bs) :
      Derives (.stmt (.branch condition yes none cond.location)) (cond :: (ts ++ bs))
  | choice {condition : Expr} {yes no : Block} {cond otherwise : Token} {ts bs cs : List Token}
      (keyword : cond.kind = .keyword .cond) (test : Derives (.expr 1 condition) ts)
      (taken : Derives (.block yes) bs) (word : otherwise.kind = .ident)
      (spelled : otherwise.literal = "else") (untaken : Derives (.block no) cs) :
      Derives (.stmt (.branch condition yes (some no) cond.location))
        (cond :: (ts ++ (bs ++ otherwise :: cs)))
  | nested {body : Block} {ts : List Token} (inside : Derives (.block body) ts) :
      Derives (.stmt (.block body)) ts
  | foreign {foreign name ending : Token} (keyword : foreign.kind = .keyword .foreign)
      (named : name.kind = .ident) (ends : ending.kind = .symbol .semicolon) :
      Derives (.stmt (.foreign name.literal foreign.location)) [foreign, name, ending]
  | leave {ret : Token} {us : List Token} (keyword : ret.kind = .keyword .ret) (ends : Semicolon us) :
      Derives (.stmt (.ret none ret.location)) (ret :: us)
  | ret {value : Expr} {ret : Token} {ts us : List Token} (keyword : ret.kind = .keyword .ret)
      (given : Derives (.expr 1 value) ts) (ends : Semicolon us) :
      Derives (.stmt (.ret (some value) ret.location)) (ret :: (ts ++ us))
  | func {params : List String} {body : Block} {func name opening closing : Token} {ps bs : List Token}
      (keyword : func.kind = .keyword .func) (named : name.kind = .ident)
      (opens : opening.kind = .symbol .leftParen) (listed : Derives (.params params) ps)
      (closes : closing.kind = .symbol .rightParen) (inside : Derives (.block body) bs) :
      Derives (.stmt (.func name.literal params body func.location))
        (func :: name :: opening :: (ps ++ closing :: bs))
  | expr {value : Expr} {first : Token} {ts us : List Token} (given : Derives (.expr 1 value) (first :: ts))
      (ends : Semicolon us) : Derives (.stmt (.expr value first.location)) (first :: (ts ++ us))
  | nil : Derives (.stmts []) []
  | cons {s : Stmt} {ss : List Stmt} {ts us : List Token} (first : Derives (.stmt s) ts)
      (others : Derives (.stmts ss) us) : Derives (.stmts (s :: ss)) (ts ++ us)

theorem Derives.loosen {level higher : Nat} {e : Expr} {ts : List Token}
    (tight : Derives (.expr higher e) ts) (le : level ≤ higher) : Derives (.expr level e) ts := by
  induction le with
  | refl => exact tight
  | step _ ih => exact ih (.tighter tight)

/-- An expression has a first token. -/
theorem Derives.ne_nil {c : Construct} {ts : List Token} (derived : Derives c ts) :
    ∀ {level e}, c = .expr level e → ts ≠ [] := by
  induction derived with
  | tighter tight ih => exact fun _ => ih rfl
  | _ => simp

/-- Whether the brackets of a run of tokens are closed in the order in which they are
opened. Those of `opened`, the innermost first, have to be closed as well. -/
def closesBrackets (opened : List Symbol) : List Token → Bool
  | [] => opened.isEmpty
  | t :: ts =>
    match t.kind with
    | .symbol .leftParen => closesBrackets (.rightParen :: opened) ts
    | .symbol .leftBrace => closesBrackets (.rightBrace :: opened) ts
    | .symbol .rightParen => opened.head? == some .rightParen && closesBrackets opened.tail ts
    | .symbol .rightBrace => opened.head? == some .rightBrace && closesBrackets opened.tail ts
    | _ => closesBrackets opened ts

theorem closesBrackets_sign {opened : List Symbol} {t : Token} {ts : List Token} {op : Operator}
    (kind : t.kind = .symbol (sign op)) : closesBrackets opened (t :: ts) = closesBrackets opened ts := by
  rw [closesBrackets, kind]
  cases op <;> rfl

theorem Semicolon.closesBrackets {us : List Token} (ends : Semicolon us) (opened : List Symbol)
    (rest : List Token) : closesBrackets opened (us ++ rest) = Grammar.closesBrackets opened rest := by
  cases ends with
  | omitted => rfl
  | written kind => simp [Grammar.closesBrackets, kind]

/-- What is derived closes all the brackets that it opens and no others. -/
theorem Derives.closesBrackets {c : Construct} {ts : List Token} (derived : Derives c ts) :
    ∀ opened rest, closesBrackets opened (ts ++ rest) = Grammar.closesBrackets opened rest := by
  induction derived with
  | binary first between second ih ih' =>
    intro opened rest
    rw [List.append_assoc, ih, List.cons_append, closesBrackets_sign between, ih']
  | tighter tight ih => exact ih
  | _ => simp_all [Grammar.closesBrackets, Semicolon.closesBrackets]

theorem admissible_symbol {t : Token} {s : Symbol} (kind : t.kind = .symbol s) : t.Admissible := by
  simp [Token.Admissible, kind]

theorem Semicolon.admissible {us : List Token} (ends : Semicolon us) : ∀ t ∈ us, t.Admissible := by
  cases ends with
  | omitted => exact List.forall_mem_nil _
  | written kind => exact List.forall_mem_singleton.mpr (admissible_symbol kind)

theorem Derives.admissible {c : Construct} {ts : List Token} (derived : Derives c ts) :
    ∀ t ∈ ts, t.Admissible := by
  induction derived with
  | number digits fits => exact List.forall_mem_singleton.mpr ⟨by simp [digits], by simp [digits], fun _ => fits⟩
  | binary first between second ih ih' =>
    exact List.forall_mem_append.mpr ⟨ih, List.forall_mem_cons.mpr ⟨admissible_symbol between, ih'⟩⟩
  | tighter tight ih => exact ih
  | _ => grind [Token.Admissible, Semicolon.admissible]

end Grammar

end ImpToC
