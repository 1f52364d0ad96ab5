import Mathlib.Algebra.Ring.Nat
import ImpToC.Proofs.C.Emission
import ImpToC.Proofs.Definitions
import ImpToC.Proofs.Lexing.Lossless
import ImpToC.Proofs.Rendering.Scanning

/-!
Integer literals and their two limits. A run of digits of any length is one token. The
parser takes its value if it fits 64 bits with a sign, and the generator takes that if it
fits 32. What is emitted are the digits of the value and not those of the source: zeros in
front of these would make C read them as octal.
-/
namespace ImpToC

open Rendering (Numeral)

namespace Parse

variable {α β : Type} {input : List Token}

/-- The limit of the parser is the one of words of 64 bits. -/
theorem integer?_eq {digits : String} {n : Nat} (read : Numeral digits n) :
    integer? digits = if n < 2 ^ 63 then some (n : Int) else none := by
  obtain ⟨_, _, rfl⟩ := read
  have limit : Nat.ofDigitChars 10 digits.toList 0 ≤ 9223372036854775807 ↔
      Nat.ofDigitChars 10 digits.toList 0 < 2 ^ 63 := by omega
  exact if_congr limit rfl rfl

/-- An integer where an operand has to stand. -/
theorem operand_int {final t : Token} {depth n : Nat} {rest : List Token} (kind : t.kind = .int)
    (read : Numeral t.literal n) :
    (operand final depth (t :: rest)).val =
      if n < 2 ^ 63 then ⟨[], .parsed (.int n t.location) t rest⟩
      else ⟨[], .failed ⟨.integerTooLarge t.literal, t.location⟩ (t :: rest)⟩ := by
  rw [operand]
  simp only [kind, integer?_eq read]
  by_cases fits : n < 2 ^ 63
  · simp only [if_pos fits]
    rfl
  · simp only [if_neg fits]
    rfl

/-- A construct fails with its first part. -/
theorem Scan.andThen_failed {s : Scan α input} {recorded : List Diagnostic} {error : Diagnostic}
    {resume : List Token}
    {next : (value : α) → (last : Token) → (rest : List Token) →
      rest.length < input.length → Scan β (last :: rest)}
    (failed : s.val = ⟨recorded, .failed error resume⟩) :
    (s.andThen next).val = ⟨recorded, .failed error resume⟩ := by
  obtain ⟨reading, ending⟩ := s
  obtain rfl : reading = ⟨recorded, .failed error resume⟩ := failed
  rfl

/-- The statement that prints an integer. Without a value there is no statement. -/
theorem statement_print {final word opening t closing ending : Token} {depth n : Nat} {rest : List Token}
    (prints : word.kind = .keyword .print) (opens : opening.kind = .symbol .leftParen) (kind : t.kind = .int)
    (read : Numeral t.literal n) (closes : closing.kind = .symbol .rightParen)
    (ends : ending.kind = .symbol .semicolon) :
    (statement final depth (word :: opening :: t :: closing :: ending :: rest)).val =
      if n < 2 ^ 63 then ⟨[], .parsed (.print (.int n t.location) word.location) ending rest⟩
      else ⟨[], .failed ⟨.integerTooLarge t.literal, t.location⟩ (t :: closing :: ending :: rest)⟩ := by
  have operand : (operand final depth (t :: closing :: ending :: rest)).val = _ := operand_int kind read
  rw [statement.eq_def]
  simp only [prints]
  refine (expect_reads opens).andThen fun _ => ?_
  by_cases fits : n < 2 ^ 63
  · rw [if_pos fits] at operand ⊢
    have weak : binding (closing :: ending :: rest) ≤ Level.lowest.rank := by
      rw [binding, closes]
      decide
    have value : (expression final depth .lowest (t :: closing :: ending :: rest)).Reads _ _ _ :=
      (expression_eq_climb operand).trans (climb_stops weak)
    refine value.behind.andThen fun _ => ?_
    exact (expect_reads closes).andThen fun _ => optionalSemicolon_some ends
  · rw [if_neg fits] at operand ⊢
    refine Scan.andThen_failed ?_
    change (expression final depth .lowest (t :: closing :: ending :: rest)).val = _
    rw [expression]
    exact Scan.andThen_failed operand

/-- After a value that is too large, recovery passes over the rest of the statement. -/
theorem program_print {final word opening t closing ending : Token} {n : Nat}
    (prints : word.kind = .keyword .print) (opens : opening.kind = .symbol .leftParen) (kind : t.kind = .int)
    (read : Numeral t.literal n) (closes : closing.kind = .symbol .rightParen)
    (ends : ending.kind = .symbol .semicolon) :
    program final [word, opening, t, closing, ending] =
      if n < 2 ^ 63 then ([.print (.int n t.location) word.location], [])
      else ([], [⟨.integerTooLarge t.literal, t.location⟩]) := by
  have first : (statement final 0 [word, opening, t, closing, ending]).val = _ :=
    statement_print prints opens kind read closes ends
  by_cases fits : n < 2 ^ 63
  · rw [if_pos fits] at first ⊢
    rw [program_of_parsed first, program_nil]
    rfl
  · rw [if_neg fits] at first ⊢
    have passed : recover 0 [t, closing, ending] = [] := by
      simp [recover, opensStatement, Token.Kind.startsStatement, kind, closes, ends]
    rw [program_of_failed first, passed, program_nil]
    rfl

end Parse

/-- A text that prints one integer. -/
def printing (digits : String) : String := "print(" ++ digits ++ ");"

section Printing

variable {digits : String} {n : Nat}

/-- The tokens of such a text, the digits being one of them. -/
theorem tokens_printing (read : Numeral digits n) :
    ∃ closes ends finish, Tokens.ofText (printing digits) =
      ⟨[⟨.keyword .print, "print", ⟨1, 1⟩⟩, ⟨.symbol .leftParen, "(", ⟨1, 6⟩⟩, ⟨.int, digits, ⟨1, 7⟩⟩,
        ⟨.symbol .rightParen, ")", closes⟩, ⟨.symbol .semicolon, ";", ends⟩], .atEnd finish⟩ := by
  obtain ⟨some, all, _⟩ := read
  have alone {s : Symbol} (rest : List Char) (single : s.extensions = []) :
      EndsRun s.extensions.contains rest := fun c _ => by simp [single]
  have written : (printing digits).toList =
      [] ++ ("print".toList ++ ([] ++ ("(".toList ++ ([] ++ (digits.toList ++
        ([] ++ (")".toList ++ ([] ++ (";".toList ++ []))))))))) := by
    simp [printing]
  rw [Tokens.ofText, written]
  refine ⟨_, _, _, Tokens.Spell.scan_eq (.cons .nil rfl (.keyword (k := .print) ?_)
    (.cons .nil rfl (.symbol (s := .leftParen) (alone _ rfl))
      (.cons .nil rfl (.number some all ?_)
        (.cons .nil rfl (.symbol (s := .rightParen) (alone _ rfl))
          (.cons .nil rfl (.symbol (s := .semicolon) (alone _ rfl)) (.nil .nil))))))⟩
  · exact endsRun_cons.mpr (by decide)
  · exact endsRun_cons.mpr (by decide)

/-- The statement is kept if the parser takes the value, and else it is left out as a whole. -/
theorem parse_printing (read : Numeral digits n) :
    Program.parse (printing digits) =
      if n < 2 ^ 63 then .ok ⟨[.print (.int n ⟨1, 7⟩) ⟨1, 1⟩]⟩
      else .error [⟨.integerTooLarge digits, ⟨1, 7⟩⟩] := by
  obtain ⟨closes, ends, finish, tokens⟩ := tokens_printing read
  have found : Parse.program (Tokens.ofText (printing digits)).final (Tokens.ofText (printing digits)).list =
      if n < 2 ^ 63 then ([.print (.int n ⟨1, 7⟩) ⟨1, 1⟩], []) else ([], [⟨.integerTooLarge digits, ⟨1, 7⟩⟩]) := by
    rw [tokens]
    exact Parse.program_print rfl rfl rfl read rfl rfl
  rw [Program.parse, Program.read, found]
  by_cases fits : n < 2 ^ 63
  · simp only [if_pos fits]
  · simp only [if_neg fits]

/-- The limit of the generator is the one of words of 32 bits. -/
theorem lower_nat (functions : FunctionTable) (scopes : Scopes) (n : Nat) (l : Location) :
    (Expr.int n l).lower functions scopes =
      if n < 2 ^ 31 then .ok (.int n) else .error ⟨.integerOutOfRange n, l⟩ := by
  have fits : Expr.fitsInt n = true ↔ n < 2 ^ 31 := by
    simp only [Expr.fitsInt, Bool.and_eq_true, decide_eq_true_eq]
    omega
  exact if_congr fits rfl rfl

/-- The C of a program that prints one integer, if there is any. -/
theorem generate_printing (n : Nat) (l m : Location) :
    Program.generate ⟨[.print (.int n l) m]⟩ =
      if n < 2 ^ 31 then .ok ⟨[], [.print .int (.int n), .ret (.int 0)]⟩
      else .error ⟨⟨.integerOutOfRange n, l⟩, Scopes.empty.push⟩ := by
  have body : Generate.statements ⟨.empty, false⟩ Scopes.empty.push [.print (.int n l) m] =
      if n < 2 ^ 31 then .ok ([.print .int (.int n)], Scopes.empty.push)
      else .error ⟨⟨.integerOutOfRange n, l⟩, Scopes.empty.push⟩ := by
    rw [Generate.statements, Generate.statement, Generate.output, lower_nat]
    by_cases fits : n < 2 ^ 31
    · simp only [if_pos fits]
      rfl
    · simp only [if_neg fits]
      rfl
  have parted : Generate.extract .empty 0 [.print (.int n l) m] = .ok (.empty, [.print (.int n l) m]) := rfl
  rw [Program.generate, parted]
  change (Generate.mainBody .empty [.print (.int n l) m]).bind (fun main => .ok (C.Code.mk [] main)) = _
  rw [Generate.mainBody, body]
  by_cases fits : n < 2 ^ 31
  · simp only [if_pos fits]
    rfl
  · simp only [if_neg fits]
    rfl

/-- The text of a program whose main body prints `argument`. -/
def printed (argument : String) : String :=
  C.preamble ++ "\n" ++ C.line 0 r"int main() {" ++ C.line 1 ("printf(\"%d\\n\", " ++ argument ++ ");") ++
    C.line 1 "return 0;" ++ C.line 0 r"}"

theorem render_printing (n : Nat) :
    C.Code.render ⟨[], [.print .int (.int n), .ret (.int 0)]⟩ = printed (toString n) := by
  have value : (C.Expr.int n).render = toString n := rfl
  have zero : (C.Expr.int 0).render = "0" := rfl
  apply String.toList_injective
  simp [C.Code.render, C.Code.prototypes, C.Stmt.renderAll, C.Stmt.render, C.line, C.conversion, printed, value,
    zero]

/-- What becomes of a text that prints one integer. -/
theorem compile_printing (read : Numeral digits n) :
    compile (printing digits) =
      if 2 ^ 63 ≤ n then .error (.malformed [⟨.integerTooLarge digits, ⟨1, 7⟩⟩])
      else if 2 ^ 31 ≤ n then .error (.noCode ⟨.integerOutOfRange n, ⟨1, 7⟩⟩)
      else .ok (printed (toString n)) := by
  rw [compile, parse_printing read]
  by_cases wide : n < 2 ^ 63
  · rw [if_pos wide, if_neg (Nat.not_le.mpr wide)]
    dsimp only
    rw [Generator.run, generate_printing]
    by_cases fits : n < 2 ^ 31
    · rw [if_pos fits, if_neg (Nat.not_le.mpr fits)]
      exact congrArg Except.ok (render_printing n)
    · rw [if_neg fits, if_pos (Nat.not_lt.mp fits)]
  · rw [if_neg wide, if_pos (Nat.not_lt.mp wide)]

theorem toList_toString (n : Nat) : (toString n).toList = Nat.toDigits 10 n := by
  rw [Nat.toString_eq_repr, Nat.repr_eq_ofList_toDigits, String.toList_ofList]

/-- Only zero has a zero in front. -/
theorem toString_eq_zero {n : Nat} (zero : (toString n).toList.head? = some '0') : toString n = "0" := by
  have none : n = 0 := by
    by_contra positive
    rw [toList_toString] at zero
    exact C.Grammar.toDigits_head?_ne_zero (Nat.pos_of_ne_zero positive) zero
  rw [none]
  rfl

end Printing

/-- Literals keep their value, however many digits they have. Where an operand has to stand,
digits whose value fits no signed word of 64 bits are told in a diagnostic, and others are
the literal of their value. A text that prints them is malformed in the first case; else it
has no C if the value fits no signed word of 32 bits, and if it does, the digits that are
emitted are those of the value alone, and C reads the value from them. -/
theorem integer_literals_keep_value (digits : String) (n : Nat) (read : Numeral digits n) :
    (∀ final depth l rest,
      (2 ^ 63 ≤ n → (Parse.operand final depth (⟨.int, digits, l⟩ :: rest)).val =
        ⟨[], .failed ⟨.integerTooLarge digits, l⟩ (⟨.int, digits, l⟩ :: rest)⟩) ∧
      (n < 2 ^ 63 → (Parse.operand final depth (⟨.int, digits, l⟩ :: rest)).val =
        ⟨[], .parsed (.int n l) ⟨.int, digits, l⟩ rest⟩)) ∧
    (Diagnostic.Cause.integerTooLarge digits).message = "could not parse \"" ++ digits ++ "\" as integer" ∧
    ((∃ ds, compile (printing digits) = .error (.malformed ds)) ↔ 2 ^ 63 ≤ n) ∧
    ((∃ l, compile (printing digits) = .error (.noCode ⟨.integerOutOfRange n, l⟩)) ↔ 2 ^ 31 ≤ n ∧ n < 2 ^ 63) ∧
    ((∃ code, compile (printing digits) = .ok code) ↔ n < 2 ^ 31) ∧
    ∀ code, compile (printing digits) = .ok code →
      ∃ argument, code = printed argument ∧ argument.toList = Nat.toDigits 10 n ∧
        (argument.toList.head? = some '0' → argument = "0") ∧
        C.Grammar.numeral? argument.toList = some n := by
  refine ⟨fun final depth l rest => ?_, rfl, ?_⟩
  · have operand : (Parse.operand final depth (⟨.int, digits, l⟩ :: rest)).val = _ := Parse.operand_int rfl read
    exact ⟨fun wide => operand.trans (if_neg (Nat.not_lt.mpr wide)), fun fits => operand.trans (if_pos fits)⟩
  · rw [compile_printing read]
    by_cases wide : 2 ^ 63 ≤ n
    · rw [if_pos wide]
      exact ⟨iff_of_true ⟨_, rfl⟩ wide, iff_of_false (by simp) (by omega), iff_of_false (by simp) (by omega),
        fun code found => by cases found⟩
    by_cases middle : 2 ^ 31 ≤ n
    · rw [if_neg wide, if_pos middle]
      exact ⟨iff_of_false (by simp) wide, iff_of_true ⟨_, rfl⟩ ⟨middle, by omega⟩,
        iff_of_false (by simp) (by omega), fun code found => by cases found⟩
    · rw [if_neg wide, if_neg middle]
      refine ⟨iff_of_false (by simp) wide, iff_of_false (by simp) (by omega), iff_of_true ⟨_, rfl⟩ (by omega),
        fun code found => ⟨toString n, (Except.ok.inj found).symm, toList_toString n, toString_eq_zero, ?_⟩⟩
      rw [toList_toString]
      exact C.Grammar.numeral?_toDigits n

/-- Zeros in front, and the last value that there is C for. -/
theorem integer_literals_keep_value_sample :
    Numeral "00002147483647" 2147483647 ∧
      ∃ argument, compile "print(00002147483647);" = .ok (printed argument) ∧
        (argument.toList.head? = some '0' → argument = "0") ∧
        C.Grammar.numeral? argument.toList = some 2147483647 := by
  have read : Numeral "00002147483647" 2147483647 :=
    ⟨by decide, List.all_eq_true.mp (by decide), by decide⟩
  obtain ⟨_, _, _, _, compiled, found⟩ := integer_literals_keep_value _ _ read
  obtain ⟨code, same⟩ := compiled.mpr (by decide)
  obtain ⟨argument, rfl, _, single, value⟩ := found code same
  exact ⟨read, argument, same, single, value⟩

end ImpToC
