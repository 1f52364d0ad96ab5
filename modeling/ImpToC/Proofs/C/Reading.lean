import ImpToC.Compile
import ImpToC.Proofs.C.Emission
import ImpToC.Proofs.C.Tree
import ImpToC.Proofs.Definitions

/-!
Emitted text keeps the tree of the program. What is lowered is spelled so that it
reads as its tree, for expressions, statements and functions in turn; and since the
grammar is unambiguous, there is no other way to read it. Only where the program calls
a keyword of C is there no way at all.
-/
namespace ImpToC

open C.Grammar

/-- What a leaf must be so that its text is read as one token. A word that opens a statement
is not called. -/
def Leaf.Emittable : Leaf → Prop
  | .name word => IsWord word
  | .callee word => IsWord word ∧ word ≠ "if" ∧ word ≠ "return"
  | .int value => 0 ≤ value
  | .str text => '"' ∉ text.toList

theorem startsWord_of_isWordChar {c : Char} (letter : Lexeme.isWordChar c = true) :
    startsWord c = true := by
  rw [Lexeme.isWordChar_iff] at letter
  rw [startsWord_iff]
  omega

theorem IsWord.isIdent {name : String} (word : IsWord name) : IsIdent name := by
  obtain ⟨some, letters⟩ := word
  obtain ⟨c, cs, spelled⟩ := List.exists_cons_of_ne_nil some
  rw [spelled] at letters
  refine ⟨c, cs, spelled, startsWord_of_isWordChar (letters c (by simp)), fun d member => ?_⟩
  rw [continuesWord, startsWord_of_isWordChar (letters d (by simp [member])), Bool.true_or]

theorem Generate.anonymousName_isIdent (index : Nat) : IsIdent (anonymousName index) := by
  refine ⟨'f', ['u', 'n', 'c', '_'] ++ Nat.toDigits 10 index, ?_, by decide, fun d member => ?_⟩
  · rw [anonymousName, Nat.toString_eq_repr, Nat.repr_eq_ofList_toDigits, String.toList_append,
      String.toList_ofList]
    simp
  · rcases List.mem_append.mp member with letter | digit
    · have letters : ['u', 'n', 'c', '_'].all continuesWord = true := rfl
      exact List.all_eq_true.mp letters d letter
    · rw [continuesWord, Nat.isDigit_of_mem_toDigits (by decide) (by decide) digit, Bool.or_true]

theorem C.notMem_keywords_of_unreserved {name : String} (free : C.isReserved name = false) :
    name ∉ C.keywords := by
  intro listed
  have reserved : C.isReserved name = true := by
    simp [C.isReserved, C.reservedNames, listed]
  rw [free] at reserved
  cases reserved

/-- A keyword of C is called. -/
def KeywordCalled (leaves : List Leaf) : Prop := ∃ name ∈ C.keywords, .callee name ∈ leaves

theorem keywordCalled_append (xs ys : List Leaf) :
    KeywordCalled (xs ++ ys) ↔ KeywordCalled xs ∨ KeywordCalled ys := by
  simp only [KeywordCalled, List.mem_append, and_or_left, exists_or]

/-- Names that are not called and literals make no difference. -/
theorem keywordCalled_cons {leaf : Leaf} (uncalled : ∀ name, leaf ≠ .callee name) (leaves : List Leaf) :
    KeywordCalled (leaf :: leaves) ↔ KeywordCalled leaves := by
  simp only [KeywordCalled, List.mem_cons, (uncalled _).symm, false_or]

theorem not_keywordCalled_iff {leaves : List Leaf} :
    ¬ KeywordCalled leaves ↔ ∀ name, .callee name ∈ leaves → name ∉ C.keywords :=
  ⟨fun none name called keyword => none ⟨name, keyword, called⟩,
    fun free ⟨name, keyword, called⟩ => free name called keyword⟩

theorem keywordCalled_iff_false {leaves : List Leaf} (silent : ∀ name, .callee name ∉ leaves) :
    KeywordCalled leaves ↔ False := by
  simp [KeywordCalled, silent]

namespace C.Grammar

theorem closed_nil : Closed [] := by
  intro rest
  exact Option.map_id_apply.symm

theorem Closed.append {a b : List Char} (first : Closed a) (second : Closed b) : Closed (a ++ b) := by
  intro rest
  rw [List.append_assoc, first, second]
  simp [Function.comp_def]

/-- A backslash takes the next character with it. -/
theorem closed_escape {c : Char} (oneLine : c ≠ '\n') : Closed ['\\', c] := by
  intro rest
  change quote? ('\\' :: c :: rest) = _
  rw [quote?, if_neg oneLine]
  rfl

theorem closed_char {c : Char} (plain : c ≠ '\\' ∧ c ≠ '"' ∧ c ≠ '\n') : Closed [c] := by
  intro rest
  change quote? (c :: rest) = _
  rw [quote?, if_neg plain.2.2]
  · rfl
  · rintro rfl
    exact absurd rfl plain.2.1
  · rintro _ _ rfl
    exact absurd rfl plain.1

theorem closed_encodeChar {c : Char} (noQuote : c ≠ '"') : Closed (Literal.encodeChar c) := by
  unfold Literal.encodeChar
  split
  · exact closed_escape (by decide)
  split
  · exact closed_escape (by decide)
  split
  · exact closed_escape (by decide)
  split
  · exact closed_escape (by decide)
  · exact closed_char ⟨‹_›, noQuote, ‹_›⟩

/-- No text without a quote ends its literal early. -/
theorem closed_encode (text : List Char) (noQuote : ∀ c ∈ text, c ≠ '"') :
    Closed (Literal.encode text) := by
  fun_induction Literal.encode text with
  | case1 => exact closed_nil
  | case2 c cs escape ih =>
    have named : c ≠ '\n' := by
      rintro rfl
      exact absurd escape (by decide)
    exact (closed_escape named).append (ih fun d member => noQuote d (by simp [member]))
  | case3 c cs unknown ih =>
    exact (closed_escape (by decide)).append (ih fun d member => noQuote d (List.mem_cons_of_mem _ member))
  | case4 c cs single ih =>
    exact (closed_encodeChar (noQuote c (by simp))).append (ih fun d member => noQuote d (by simp [member]))

end C.Grammar

namespace Expr

variable {functions : FunctionTable} {scopes : Scopes}

/-- The body that a sum of literals is folded to ends with its literal, and nothing is called
in such a sum. -/
theorem closed_of_literalBody? {e : Expr} {body : String} (folded : e.literalBody? = some body)
    (emittable : ∀ leaf ∈ e.leaves, leaf.Emittable) :
    Closed body.toList ∧ ∀ name, .callee name ∉ e.leaves := by
  induction e using Expr.induction generalizing body with
  | str text l =>
    have noQuote : '"' ∉ text.toList := emittable (.str text) (by simp [leaves])
    simp only [literalBody?, Option.some.injEq] at folded
    subst folded
    rw [C.Literal.body, String.toList_ofList]
    exact ⟨closed_encode _ fun c member same => noQuote (same ▸ member), by simp [leaves]⟩
  | binary op left right l first second =>
    cases op with
    | add =>
      simp only [literalBody?] at folded
      split at folded
      · next x y leftBody rightBody =>
        cases folded
        obtain ⟨leftClosed, leftSilent⟩ :=
          first leftBody fun leaf member => emittable leaf (by simp [leaves, member])
        obtain ⟨rightClosed, rightSilent⟩ :=
          second rightBody fun leaf member => emittable leaf (by simp [leaves, member])
        rw [String.toList_append]
        exact ⟨leftClosed.append rightClosed, by simp [leaves, leftSilent, rightSilent]⟩
      · cases folded
    | _ => simp [literalBody?] at folded
  | _ => simp [literalBody?] at folded

/-- What code spells, alone and as an operand: its tree. -/
structure Spells (called : Prop) (code : C.Expr) : Prop where
  alone : Spelt called code.render 1 code.tree
  operand : Spelt called (code.parenthesise code.render) 4 code.tree

variable {called called' : Prop} {code a b : C.Expr}

theorem spells_of_operation (operation : code.isOperation = true)
    (spelt : Spelt called code.render 1 code.tree) : Spells called code := by
  refine ⟨spelt, ?_⟩
  rw [C.Expr.parenthesise, if_pos operation]
  exact spelt_paren spelt

theorem spells_of_operand (plain : code.isOperation = false)
    (spelt : Spelt called code.render 4 code.tree) : Spells called code := by
  refine ⟨spelt.loosen (by decide), ?_⟩
  rw [C.Expr.parenthesise, if_neg (by simp [plain])]
  exact spelt

/-- A call of a fixed function with two arguments. -/
theorem spelt_pair {name first second : String} {left right : C.Grammar.Expr} (ident : IsIdent name)
    (free : name ∉ C.keywords) (spelt : Spelt called first 1 left) (spelt' : Spelt called' second 1 right) :
    Spelt (called ∨ called') (name ++ "(" ++ (first ++ ", " ++ second) ++ ")") 4
      (.call (.ident name) [left, right]) := by
  have other : name ≠ "if" ∧ name ≠ "return" := by
    constructor <;> rintro rfl <;> exact free (by decide)
  have pair := spelt_call ident other (.cons spelt (.cons spelt' .nil))
  rw [String.intercalate_cons_cons, String.intercalate_singleton] at pair
  exact pair.congr (by simp [free])

theorem spells_compare {op : Operator} (first : Spells called a) (second : Spells called' b) :
    Spells (called ∨ called') (.compare op a b) := by
  refine spells_of_operation rfl ?_
  have call := spelt_pair (isIdent_fixed "strcmp" (by decide)) (by decide) first.alone second.alone
  have tested : Spelt _ _ 4 (C.Expr.compare op a b).tree := spelt_paren (spelt_binary call (spelt_nat 0))
  have text : (C.Expr.compare op a b).render = "(" ++ ("strcmp" ++ "(" ++ (a.render ++ ", " ++ b.render) ++ ")" ++
      " " ++ op.symbol ++ " " ++ toString 0) ++ ")" := by
    have opening : "(strcmp(" = "(" ++ ("strcmp" ++ "(") := by decide
    have closing : ") " = ")" ++ " " := by decide
    have zero : " 0)" = " " ++ (toString 0 ++ ")") := by decide
    change "(strcmp(" ++ a.render ++ ", " ++ b.render ++ ") " ++ op.symbol ++ " 0)" = _
    simp only [opening, closing, zero, String.append_assoc]
  rw [text]
  exact (tested.loosen (by decide)).congr (by rw [or_false])

theorem spells_concat (first : Spells called a) (second : Spells called' b) :
    Spells (called ∨ called') (.concat a b) := by
  refine spells_of_operand rfl ?_
  have text : (C.Expr.concat a b).render = "concat_strings" ++ "(" ++ (a.render ++ ", " ++ b.render) ++ ")" := by
    have opening : "concat_strings(" = "concat_strings" ++ "(" := by decide
    change "concat_strings(" ++ a.render ++ ", " ++ b.render ++ ")" = _
    simp only [opening, String.append_assoc]
  rw [text]
  exact spelt_pair (isIdent_fixed "concat_strings" (by decide)) (by decide) first.alone second.alone

/-- Strings that are joined: one literal, or a call. -/
theorem spells_joined {left right : Expr} {l : Location}
    (emittable : ∀ leaf ∈ (binary .add left right l).leaves, leaf.Emittable)
    (first : Spells (KeywordCalled left.leaves) a) (second : Spells (KeywordCalled right.leaves) b) :
    Spells (KeywordCalled left.leaves ∨ KeywordCalled right.leaves) (joined left right a b) := by
  unfold joined
  split
  · next x y leftBody rightBody =>
    obtain ⟨leftClosed, leftSilent⟩ := closed_of_literalBody? leftBody
      fun leaf member => emittable leaf (by simp [leaves, member])
    obtain ⟨rightClosed, rightSilent⟩ := closed_of_literalBody? rightBody
      fun leaf member => emittable leaf (by simp [leaves, member])
    have closed := leftClosed.append rightClosed
    rw [← String.toList_append] at closed
    rw [keywordCalled_iff_false leftSilent, keywordCalled_iff_false rightSilent, or_self]
    exact spells_of_operand rfl (spelt_literal closed)
  · exact spells_concat first second

theorem speltAll_args {args : List Expr} {codes : List C.Expr}
    (each : ∀ e ∈ args, ∀ code, e.lower functions scopes = .ok code → Spells (KeywordCalled e.leaves) code)
    (lowered : List.Forall₂ (fun e code => e.lower functions scopes = .ok code) args codes) :
    SpeltAll (KeywordCalled (leavesOfAll args)) (C.Expr.renderAll codes) (C.Expr.treesOfAll codes) := by
  induction lowered with
  | nil =>
    rw [leavesOfAll, keywordCalled_iff_false (by simp)]
    exact .nil
  | @cons e code es codes first others ih =>
    rw [leavesOfAll, keywordCalled_append]
    exact .cons (each e (by simp) code first).alone (ih fun e member => each e (by simp [member]))

theorem keywordCalled_call {name : String} {args : List Expr} {m l : Location} :
    KeywordCalled (call (ident name m) args l).leaves ↔ name ∈ C.keywords ∨ KeywordCalled (leavesOfAll args) := by
  have callee : KeywordCalled [.callee name, .name name] ↔ name ∈ C.keywords := by simp [KeywordCalled]
  rw [← callee, ← keywordCalled_append]
  rfl

/-- A lowered expression is spelled as its tree. -/
theorem lowered_spells (named : scopes.Named) (e : Expr) (code : C.Expr)
    (lowered : e.lower functions scopes = .ok code)
    (emittable : ∀ leaf ∈ e.leaves, leaf.Emittable) :
    Spells (KeywordCalled e.leaves) code := by
  induction e using Expr.induction generalizing code with
  | ident name l =>
    obtain ⟨⟨type, bound⟩, rfl⟩ := lower_ident_ok.mp lowered
    have word : IsWord name := emittable (.name name) (by simp [leaves])
    have free := C.notMem_keywords_of_unreserved (named.lookup? bound)
    rw [keywordCalled_iff_false (by simp [leaves])]
    exact spells_of_operand rfl (spelt_ident word.isIdent free)
  | int value l =>
    obtain ⟨_, rfl⟩ := lower_int_ok.mp lowered
    have positive : 0 ≤ value := emittable (.int value) (by simp [leaves])
    obtain ⟨n, rfl⟩ := Int.eq_ofNat_of_zero_le positive
    rw [keywordCalled_iff_false (by simp [leaves])]
    exact spells_of_operand rfl (spelt_nat n)
  | str text l =>
    obtain rfl := lower_str_ok.mp lowered
    have noQuote : '"' ∉ text.toList := emittable (.str text) (by simp [leaves])
    have closed : Closed (C.Literal.body text).toList := by
      rw [C.Literal.body, String.toList_ofList]
      exact closed_encode _ fun c member same => noQuote (same ▸ member)
    rw [keywordCalled_iff_false (by simp [leaves])]
    exact spells_of_operand rfl (spelt_literal closed)
  | binary op left right l first second =>
    obtain ⟨a, b, leftOk, rightOk, whole⟩ := lower_binary_ok.mp lowered
    have leftSpells := first a leftOk fun leaf member => emittable leaf (by simp [leaves, member])
    have rightSpells := second b rightOk fun leaf member => emittable leaf (by simp [leaves, member])
    rw [leaves, keywordCalled_append]
    rcases lowerBinary_ok.mp whole with ⟨_, _, rfl⟩ | ⟨_, _, ⟨rfl, rfl⟩ | ⟨_, rfl⟩⟩
    · exact spells_of_operation rfl (spelt_binary leftSpells.operand rightSpells.operand)
    · exact spells_joined emittable leftSpells rightSpells
    · exact spells_compare leftSpells rightSpells
  | call callee args l first each =>
    obtain ⟨name, m, codes, rfl, _, _, allLowered, rfl⟩ := lower_call_ok.mp lowered
    obtain ⟨word, other⟩ : IsWord name ∧ name ≠ "if" ∧ name ≠ "return" :=
      emittable (.callee name) (by simp [leaves, calleeName?])
    rw [keywordCalled_call]
    refine spells_of_operand rfl (spelt_call word.isIdent other (speltAll_args (fun e member code done =>
      each e member code done fun leaf inside => emittable leaf ?_) allLowered))
    rw [leaves, List.mem_append]
    exact .inr (mem_leavesOfAll.mpr ⟨e, member, inside⟩)
  | func params body l => exact absurd lowered lower_func_ne_ok

end Expr

namespace Stmt

variable {context : Generate.Context}

theorem laid_new {scopes after : Scopes} {name : String} {value : Expr} {l : Location}
    {code : C.Stmt} (named : scopes.Named) (word : IsWord name)
    (emittable : ∀ leaf ∈ value.leaves, leaf.Emittable)
    (done : Generate.declaration context.functions scopes name (some value) l = .ok (code, after))
    (depth : Nat) : Laid (KeywordCalled (.name name :: value.leaves)) (code.render depth) code.trees := by
  obtain ⟨unreserved, _, inner, lowered, _, rfl⟩ := Generate.declaration_some_ok.mp done
  have free := C.notMem_keywords_of_unreserved unreserved
  have spells := Expr.lowered_spells named value inner lowered emittable
  rw [keywordCalled_cons (by simp)]
  exact laid_initialise word.isIdent free spells.alone

theorem laid_print {called : Prop} {type : ValueType} {code : C.Expr} (spells : Expr.Spells called code)
    (depth : Nat) : Laid called ((C.Stmt.print type code).render depth) (C.Stmt.print type code).trees := by
  have closed : Closed (C.conversion type ++ "\\n").toList := by
    have feed : Closed "\\n".toList := closed_escape (by decide)
    cases type with
    | int => exact (closed_char (by decide)).append ((closed_char (by decide)).append feed)
    | str => exact (closed_char (by decide)).append ((closed_char (by decide)).append feed)
  have format : (C.conversion type ++ "\\n").toList = C.Grammar.format type := by cases type <;> rfl
  have literal := (spelt_literal closed).loosen (m := 1) (by decide)
  rw [format] at literal
  have call := Expr.spelt_pair (isIdent_fixed "printf" (by decide)) (by decide) literal spells.alone
  have text : "printf(\"" ++ C.conversion type ++ "\\n\", " ++ code.render ++ ");" =
      "printf" ++ "(" ++ ("\"" ++ (C.conversion type ++ "\\n") ++ "\"" ++ ", " ++ code.render) ++ ")" ++ ";" := by
    have opening : "printf(\"" = "printf" ++ ("(" ++ "\"") := by decide
    have middle : "\\n\", " = "\\n" ++ ("\"" ++ ", ") := by decide
    have closing : ");" = ")" ++ ";" := by decide
    simp only [opening, middle, closing, String.append_assoc]
  change Laid called (C.line depth ("printf(\"" ++ C.conversion type ++ "\\n\", " ++ code.render ++ ");")) _
  rw [text]
  exact (laid_expr (call.loosen (by decide))).congr (by rw [false_or])

/-- The remark for a foreign function is one comment: a word holds no line break. -/
theorem laid_foreign {depth : Nat} {name : String} (word : IsWord name) :
    Laid False ((C.Stmt.foreign name).render depth) [] := by
  have oneLine : '\n' ∉ (" extern " ++ name ++ " declared (handled by C headers)").toList := by
    intro feed
    simp only [String.toList_append, List.mem_append] at feed
    rcases feed with (before | inside) | behind
    · revert before
      decide
    · exact absurd (word.2 _ inside) (by decide)
    · revert behind
      decide
  have text : "//" ++ (" extern " ++ name ++ " declared (handled by C headers)") =
      "// extern " ++ name ++ " declared (handled by C headers)" := by
    have opening : "// extern " = "//" ++ " extern " := by decide
    simp only [opening, String.append_assoc]
  change Laid False (C.line depth ("// extern " ++ name ++ " declared (handled by C headers)")) []
  rw [← text]
  exact laid_comment oneLine

/-- Statements in order are laid out as soon as each of them is. -/
theorem allLaid {ss : List Stmt} {codes : List C.Stmt} {scopes after : Scopes} (named : scopes.Named)
    (each : ∀ s ∈ ss, ∀ scopes after code, scopes.Named → Generate.statement context scopes s = .ok (code, after) →
      ∀ depth, Laid (KeywordCalled s.leaves) (code.render depth) code.trees)
    (done : Generate.statements context scopes ss = .ok (codes, after)) (depth : Nat) :
    Laid (KeywordCalled (leavesOfAll ss)) (C.Stmt.renderAll depth codes) (C.Stmt.treesOfAll codes) := by
  induction ss generalizing scopes codes with
  | nil =>
    rw [Generate.statements] at done
    cases done
    rw [leavesOfAll, keywordCalled_iff_false (by simp)]
    exact laid_nil
  | cons s ss ih =>
    obtain ⟨code, middle, others, first, later, rfl⟩ := Generate.statements_cons_ok.mp done
    have laid := each s (by simp) scopes middle code named first depth
    rw [leavesOfAll, keywordCalled_append]
    exact laid.append (ih (Generate.statement_named first named) (fun s member => each s (by simp [member])) later)

theorem blockLaid {body : Block} {codes : List C.Stmt} {scopes : Scopes} (named : scopes.Named)
    (each : ∀ s ∈ body.statements, ∀ scopes after code, scopes.Named →
      Generate.statement context scopes s = .ok (code, after) →
        ∀ depth, Laid (KeywordCalled s.leaves) (code.render depth) code.trees)
    (done : Generate.block context scopes body = .ok codes) (depth : Nat) :
    Laid (KeywordCalled body.leaves) (C.Stmt.renderAll depth codes) (C.Stmt.treesOfAll codes) := by
  obtain ⟨final, inside⟩ := Generate.block_ok.mp done
  obtain ⟨body, l⟩ := body
  exact allLaid named.push each inside depth

/-- A lowered statement is laid out as its trees. -/
theorem lowered_laid (s : Stmt) (emittable : ∀ leaf ∈ s.leaves, leaf.Emittable) (scopes after : Scopes)
    (code : C.Stmt) (named : scopes.Named) (done : Generate.statement context scopes s = .ok (code, after))
    (depth : Nat) : Laid (KeywordCalled s.leaves) (code.render depth) code.trees := by
  induction s using Stmt.induction generalizing scopes after code depth with
  | declare name value l =>
    have word : IsWord name := emittable (.name name) (by simp [leaves])
    rw [Generate.statement] at done
    cases value with
    | none =>
      obtain ⟨unreserved, _, rfl⟩ := Generate.declaration_none_ok.mp done
      rw [keywordCalled_iff_false (by simp [leaves, Expr.leavesOfOption])]
      exact laid_declare word.isIdent (C.notMem_keywords_of_unreserved unreserved)
    | some value =>
      exact laid_new named word
        (fun leaf member => emittable leaf (by simp [leaves, Expr.leavesOfOption, member])) done depth
  | assign name value l =>
    have word : IsWord name := emittable (.name name) (by simp [leaves])
    have inner : ∀ leaf ∈ value.leaves, leaf.Emittable :=
      fun leaf member => emittable leaf (by simp [leaves, member])
    rw [Generate.statement] at done
    rcases Generate.assignment_ok.mp done with ⟨_, new⟩ | ⟨bound, rfl, code, lowered, rfl⟩
    · exact laid_new named word inner new depth
    · have spells := Expr.lowered_spells named value code lowered inner
      have free := C.notMem_keywords_of_unreserved (named.lookup? bound)
      rw [leaves, keywordCalled_cons (by simp)]
      exact laid_assign word.isIdent free spells.alone
  | print value l =>
    rw [Generate.statement, Generate.keeping_ok] at done
    obtain ⟨printed, rfl⟩ := done
    obtain ⟨inner, lowered, rfl⟩ := Generate.output_ok.mp printed
    exact laid_print (Expr.lowered_spells named value inner lowered
      fun leaf member => emittable leaf (by simp [leaves, member])) depth
  | branch condition consequence alternative l taken untaken =>
    obtain ⟨rfl, test, yes, no, tested, first, second, rfl⟩ := Generate.branch_ok.mp done
    have spells := Expr.lowered_spells named condition test tested
      fun leaf member => emittable leaf (by simp [leaves, member])
    have yesLaid := blockLaid named (fun s member => taken s member fun leaf inside =>
      emittable leaf (by simp [leaves, Block.leaves_of_mem member inside])) first (depth + 1)
    rcases Generate.optionalBlock_ok.mp second with ⟨rfl, rfl⟩ | ⟨body, codes, rfl, lowered, rfl⟩
    · refine (laid_branch spells.alone yesLaid).congr ?_
      rw [← keywordCalled_append, leaves, Block.leavesOfOption, List.append_nil]
    · have noLaid := blockLaid named (fun s member => untaken body rfl s member
        fun leaf inside => emittable leaf
          (by simp [leaves, Block.leavesOfOption, Block.leaves_of_mem member inside])) lowered (depth + 1)
      refine (laid_choice spells.alone yesLaid noLaid).congr ?_
      rw [← keywordCalled_append, ← keywordCalled_append, ← List.append_assoc, leaves, Block.leavesOfOption]
  | block body each =>
    obtain ⟨rfl, inner, lowered, rfl⟩ := Generate.statement_block_ok.mp done
    exact laid_block (blockLaid named (fun s member => each s member fun leaf inside =>
      emittable leaf (by simp [leaves, Block.leaves_of_mem member inside])) lowered (depth + 1))
  | foreign name l =>
    rw [Generate.statement] at done
    cases done
    rw [keywordCalled_iff_false (by simp [leaves])]
    exact laid_foreign (emittable (.name name) (by simp [leaves]))
  | ret value l =>
    rw [Generate.statement, Generate.keeping_ok] at done
    obtain ⟨returned, rfl⟩ := done
    cases value with
    | none =>
      cases returned
      rw [keywordCalled_iff_false (by simp [leaves, Expr.leavesOfOption])]
      exact laid_ret ((spelt_nat 0).loosen (by decide))
    | some value =>
      obtain ⟨_, inner, lowered, rfl⟩ := Generate.returning_some_ok.mp returned
      exact laid_ret (Expr.lowered_spells named value inner lowered
        fun leaf member => emittable leaf (by simp [leaves, Expr.leavesOfOption, member])).alone
  | func name params body l =>
    rw [Generate.statement] at done
    cases done
  | expr value l =>
    rw [Generate.statement, Generate.keeping_ok] at done
    obtain ⟨evaluated, rfl⟩ := done
    obtain ⟨inner, lowered, rfl⟩ := Generate.bare_ok.mp evaluated
    have spells := Expr.lowered_spells named value inner lowered
      fun leaf member => emittable leaf (by simp [leaves, member])
    cases context.inFunction with
    | true => exact laid_expr spells.alone
    | false => exact laid_print spells depth

end Stmt

theorem C.Stmt.renderAll_append (depth : Nat) (xs ys : List C.Stmt) :
    renderAll depth (xs ++ ys) = renderAll depth xs ++ renderAll depth ys := by
  induction xs with
  | nil => rw [List.nil_append, renderAll, String.empty_append]
  | cons x xs ih => rw [List.cons_append, renderAll, renderAll, ih, String.append_assoc]

theorem C.Stmt.renderAll_concat (depth : Nat) (xs : List C.Stmt) (s : C.Stmt) :
    renderAll depth (xs ++ [s]) = renderAll depth xs ++ s.render depth := by
  rw [renderAll_append, renderAll, renderAll, String.append_empty]

namespace FunctionDef

/-- What a function may be called and what it may hold so that its C can be read. -/
structure Emittable (d : FunctionDef) : Prop where
  ident : IsIdent d.name
  free : d.name ∉ C.keywords
  params : ∀ name ∈ d.params, IsWord name
  body : ∀ leaf ∈ d.body.leaves, leaf.Emittable

theorem keywordCalled_leaves (d : FunctionDef) :
    KeywordCalled d.leaves ↔ KeywordCalled (Stmt.leavesOfAll d.body.statements) := by
  obtain ⟨name, params, ⟨ss, m⟩, l⟩ := d
  rw [leaves, keywordCalled_cons (by simp), keywordCalled_append, keywordCalled_iff_false (by simp), false_or]
  rfl

/-- The prototype and the definition of a lowered function. -/
theorem lowered_filed {table : FunctionTable} {d : FunctionDef} {f : C.Function}
    (emittable : d.Emittable) (done : Generate.function table d = .ok f) :
    Filed False f.prototype [f.prototypeItem] ∧ Filed (KeywordCalled d.leaves) f.render [f.definitionItem] := by
  obtain ⟨scopes, codes, final, declared, lowered, rfl⟩ := Generate.function_ok.mp done
  obtain ⟨_, each, rfl⟩ := Generate.parameters_ok.mp declared
  have idents : ∀ name ∈ d.name :: d.params, IsIdent name := by
    intro name member
    rcases List.mem_cons.mp member with rfl | param
    · exact emittable.ident
    · exact (emittable.params name param).isIdent
  have free : ∀ name ∈ d.name :: d.params, name ∉ C.keywords := by
    intro name member
    rcases List.mem_cons.mp member with rfl | param
    · exact emittable.free
    · exact C.notMem_keywords_of_unreserved (each name param).1
  have named := Scopes.named_empty.parameters fun name member => (each name member).1
  have body := Stmt.allLaid named (fun s member => Stmt.lowered_laid s fun leaf inside =>
    emittable.body leaf (Block.leaves_of_mem member inside)) lowered 1
  rw [← d.keywordCalled_leaves] at body
  refine ⟨filed_prototype idents free, filed_definition idents free ?_⟩
  cases Generate.endsInReturn d.body.statements with
  | true =>
    rw [if_pos rfl, List.append_nil]
    exact body
  | false =>
    rw [if_neg Bool.false_ne_true, C.Stmt.renderAll_concat, C.Stmt.treesOfAll_append]
    exact (body.append (laid_ret ((spelt_nat 0).loosen (by decide)))).congr (by rw [or_false])

end FunctionDef

namespace Program

variable {p : Program} {c : C.Code}

theorem lowered_filed {table : FunctionTable} {ds : List FunctionDef} {fs : List C.Function}
    (emittable : ∀ d ∈ ds, d.Emittable)
    (lowered : List.Forall₂ (fun d f => Generate.function table d = .ok f) ds fs) :
    Filed False (String.join (fs.map C.Function.prototype)) (fs.map C.Function.prototypeItem) ∧
      Filed (KeywordCalled (ds.flatMap FunctionDef.leaves)) (String.join (fs.map C.Function.render))
        (fs.map C.Function.definitionItem) := by
  induction lowered with
  | nil =>
    rw [List.flatMap_nil, keywordCalled_iff_false (by simp)]
    exact ⟨filed_nil, filed_nil⟩
  | @cons d f ds fs first others ih =>
    obtain ⟨prototype, definition⟩ := d.lowered_filed (emittable d (by simp)) first
    obtain ⟨prototypes, definitions⟩ := ih fun d member => emittable d (by simp [member])
    simp only [List.map_cons, String.join_cons, List.flatMap_cons, keywordCalled_append]
    exact ⟨(prototype.append prototypes).congr (or_self_iff), definition.append definitions⟩

/-- The text behind the preamble, as it is put together. -/
theorem render_eq (c : C.Code) :
    c.render = C.preamble ++ (c.prototypes ++ (String.join (c.functions.map C.Function.render) ++
      (C.Function.mk "main" [] c.main).render)) := by
  have signature : (C.Function.mk "main" [] c.main).signature = "int main()" := by
    change "int " ++ "main" ++ "(" ++ ", ".intercalate ([].map ("int " ++ ·)) ++ ")" = "int main()"
    decide
  have opening : r"int main() {" = "int main()" ++ r" {" := by decide
  rw [C.Code.render, C.Function.render, signature, opening]
  simp only [String.append_assoc]

/-- Names that are given hold a digit, so neither they nor the others are keywords. -/
theorem name_notMem_keywords
    (unreserved : ∀ name params body l, .func name params body l ∈ p.statements →
      C.isReserved name = false) {d : FunctionDef} (member : d ∈ p.definitions) : d.name ∉ C.keywords := by
  have words : ∀ word ∈ C.keywords, IsWord word := by decide
  rcases name_of_definition member with ⟨_, among⟩ | ⟨index, given⟩
  · exact C.notMem_keywords_of_unreserved (unreserved _ _ _ _ among)
  · rw [given]
    exact fun listed => (words _ listed).ne_anonymousName index rfl

/-- A program that was read has functions that can be emitted. -/
theorem definition_emittable (emittable : ∀ leaf ∈ p.leaves, leaf.Emittable)
    (unreserved : ∀ name params body l, .func name params body l ∈ p.statements →
      C.isReserved name = false) {d : FunctionDef} (member : d ∈ p.definitions) : d.Emittable := by
  have ident : IsIdent d.name := by
    rcases name_of_definition member with ⟨leaf, _⟩ | ⟨index, given⟩
    · have word : IsWord d.name := emittable _ leaf
      exact word.isIdent
    · rw [given]
      exact Generate.anonymousName_isIdent index
  refine ⟨ident, name_notMem_keywords unreserved member, fun name param => ?_, fun leaf inside => ?_⟩
  · exact emittable (.name name) (leaves_of_definition member
      (List.mem_append_left _ (List.mem_map_of_mem param)))
  · exact emittable leaf (leaves_of_definition member (List.mem_append_right _ inside))

/-- The main body and the return that ends it. -/
theorem main_filed (emittable : ∀ leaf ∈ p.leaves, leaf.Emittable)
    (done : Generate.mainBody p.table p.mainStatements = .ok c.main) :
    Filed (KeywordCalled (Stmt.leavesOfAll p.mainStatements)) (C.Function.mk "main" [] c.main).render
      [(C.Function.mk "main" [] c.main).definitionItem] := by
  obtain ⟨codes, final, lowered, whole⟩ := Generate.mainBody_ok.mp done
  have body := Stmt.allLaid Scopes.named_empty (fun s member => Stmt.lowered_laid s
    fun leaf inside => emittable leaf (Stmt.mem_leavesOfAll.mpr
      ⟨s, (List.mem_filter.mp member).1, inside⟩)) lowered 1
  have ended : Laid False ((C.Stmt.ret (.int 0)).render 1) (C.Stmt.ret (.int 0)).trees :=
    laid_ret ((spelt_nat 0).loosen (by decide))
  refine filed_definition ?_ ?_ ?_
  · intro name member
    rw [List.mem_singleton.mp member]
    exact isIdent_fixed "main" (by decide)
  · intro name member
    rw [List.mem_singleton.mp member]
    change "main" ∉ C.keywords
    decide
  · rw [whole, C.Stmt.renderAll_concat, C.Stmt.treesOfAll_append]
    exact (body.append ended).congr (by rw [or_false, mainStatements])

/-- The text behind the preamble is filed as the tree of the code. -/
theorem generate_filed (done : p.generate = .ok c) (emittable : ∀ leaf ∈ p.leaves, leaf.Emittable) :
    ∃ rest, c.render = C.preamble ++ rest ∧ Filed (KeywordCalled p.leaves) rest c.items := by
  obtain ⟨joins, functions, main⟩ := generate_ok.mp done
  obtain ⟨prototypes, definitions⟩ := lowered_filed
    (fun d member => definition_emittable emittable joins.unreserved member) functions
  have spaced : Filed False c.prototypes (c.functions.map C.Function.prototypeItem) := by
    unfold C.Code.prototypes
    cases none : c.functions.isEmpty with
    | false =>
      rw [if_neg Bool.false_ne_true]
      exact (filed_newline.append prototypes).congr (or_self_iff)
    | true =>
      rw [if_pos rfl, List.isEmpty_iff.mp none]
      exact filed_nil
  refine ⟨_, render_eq c, ?_⟩
  rw [C.Code.items, List.append_assoc]
  refine (spaced.append (definitions.append (main_filed emittable main))).congr ?_
  rw [false_or, ← keywordCalled_append]
  exact exists_congr fun name => and_congr_right fun _ => Stmt.mem_callees_parted name 0 p.statements

end Program

/-- A text read as C: its tokens, and a file that the grammar makes of them. -/
def C.Grammar.Reads (text : String) (items : List Item) : Prop :=
  ∃ ts, lex text.toList = some ts ∧ File items ts

theorem C.Grammar.Filed.reads_iff {called : Prop} {text : String} {items : List Item}
    (filed : Filed called text items) (other : List Item) : Reads text other ↔ ¬ called ∧ other = items := by
  obtain ⟨ts, lexed, files, improper⟩ := filed
  have tokens : lex text.toList = some ts := by
    have alone := lexed []
    rw [List.append_nil] at alone
    rw [alone]
    simp [lex]
  have file (good : ¬ called) : File items ts := by simpa using files good [] [] .nil
  constructor
  · rintro ⟨us, again, readAs⟩
    rw [tokens, Option.some.injEq] at again
    subst again
    have good : ¬ called := fun bad => improper bad readAs.proper
    exact ⟨good, readAs.unique _ _ (file good) rfl⟩
  · rintro ⟨good, rfl⟩
    exact ⟨ts, tokens, file good⟩

theorem Leaf.Readable.emittable {leaf : Leaf} (readable : leaf.Readable) : leaf.Emittable := by
  cases leaf with
  | name word => exact readable.1
  | callee word =>
    refine ⟨readable.1, ?_, ?_⟩ <;> rintro rfl <;> exact absurd readable.2 (by decide)
  | int value => exact readable.1
  | str text => exact readable

/-- The text of a program that was read can be read again unless a keyword is called, and then
as the tree of its code only. -/
theorem Program.generate_reads_iff {source : String} {p : Program} {c : C.Code}
    (parsed : Program.parse source = .ok p) (generated : p.generate = .ok c) :
    ∃ rest, c.render = C.preamble ++ rest ∧
      ∀ items, C.Grammar.Reads rest items ↔ ¬ KeywordCalled p.leaves ∧ items = c.items := by
  obtain ⟨rest, whole, filed⟩ := generate_filed generated fun leaf member =>
    (parse_readable parsed leaf member).emittable
  exact ⟨rest, whole, filed.reads_iff⟩

/-- Behind the preamble, the emitted text can be read as C in one way and no other, and
what is read is the tree of the program. -/
theorem compile_reads_iff_translation (source text : String) (p : Program)
    (parsed : Program.parse source = .ok p) (compiled : compile source = .ok text)
    (callees : ∀ name, .callee name ∈ p.leaves → name ∉ C.keywords) :
    ∃ rest, text = C.preamble ++ rest ∧
      ∀ items, C.Grammar.Reads rest items ↔ items = p.translation := by
  obtain ⟨q, c, parsedAgain, generated, rendered⟩ := compile_eq_ok.mp compiled
  rw [parsed, Except.ok.injEq] at parsedAgain
  subst parsedAgain
  obtain ⟨rest, whole, reads⟩ := Program.generate_reads_iff parsed generated
  refine ⟨rest, rendered ▸ whole, fun items => ?_⟩
  rw [reads, and_iff_right (not_keywordCalled_iff.mpr callees), Program.items_eq_translation generated]

/-- A program with a function, an operand that needs parentheses and strings that are
joined: its text is read as a prototype, a definition and the main function. -/
theorem compile_reads_iff_translation_sample :
    ∃ source text rest p, source = "func twice(n) { return n * 2; } var s = \"a\";
        if s + \"b\" == \"ab\" { twice(1 - (2 - 3)) }" ∧
      Program.parse source = .ok p ∧ compile source = .ok text ∧ text = C.preamble ++ rest ∧
      C.Grammar.Reads rest p.translation ∧ p.translation.length = 3 := by
  generalize given : "func twice(n) { return n * 2; } var s = \"a\";
        if s + \"b\" == \"ab\" { twice(1 - (2 - 3)) }" = source
  have evaluated : (match Program.parse source, compile source with
      | .ok p, .ok _ =>
        p.leaves.all (fun | .callee name => name = "twice" | _ => true) && p.translation.length == 3
      | _, _ => false) = true := by
    rw [← given]
    decide +kernel
  cases parsed : Program.parse source with
  | error diagnostics => simp [parsed] at evaluated
  | ok p =>
    cases compiled : compile source with
    | error fault => simp [parsed, compiled] at evaluated
    | ok text =>
      simp only [parsed, compiled, Bool.and_eq_true, List.all_eq_true, beq_iff_eq] at evaluated
      obtain ⟨called, sized⟩ := evaluated
      have callees : ∀ name, .callee name ∈ p.leaves → name ∉ C.keywords := by
        intro name member
        have only : name = "twice" := by simpa using called (.callee name) member
        rw [only]
        decide
      obtain ⟨rest, whole, reads⟩ :=
        compile_reads_iff_translation source text p parsed compiled callees
      exact ⟨source, text, rest, p, rfl, parsed, compiled, whole, (reads _).mpr rfl, sized⟩

end ImpToC
