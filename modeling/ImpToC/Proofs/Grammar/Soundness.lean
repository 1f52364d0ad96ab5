import ImpToC.Proofs.Grammar.Derivation
import ImpToC.Proofs.Grammar.Forms
import ImpToC.Proofs.Rendering.Scanning

/-!
What is read without a complaint is derived. A reading that succeeds has succeeded in
each of its parts, so every rule of the parser is opened from the outside in, and the
tokens between the start of a construct and what is left over are those of a derivation
of its tree. Climbing is where levels matter: the left operand has been derived at some
level, and no operator that follows binds more tightly than that.
-/
namespace ImpToC

namespace Parse

variable {α β : Type} {input : List Token}

namespace Scan

variable {value : α} {last : Token} {rest : List Token}

theorem not_reads_fail {error : Diagnostic} : ¬ (fail error input : Scan α input).Reads value last rest := by
  intro read
  cases read

theorem reads_behind {s : Scan α input} {t : Token} :
    (s.behind t).Reads value last rest ↔ s.Reads value last rest := Iff.rfl

theorem reads_done {value' : α} {last' : Token} {rest' : List Token}
    (read : (done value last rest).Reads value' last' rest') : value' = value ∧ last' = last ∧ rest' = rest := by
  cases read
  exact ⟨rfl, rfl, rfl⟩

theorem reads_map {s : Scan β input} {f : β → α} (read : (s.map f).Reads value last rest) :
    ∃ inner, s.Reads inner last rest ∧ value = f inner := by
  obtain ⟨⟨recorded, outcome⟩, ending⟩ := s
  cases outcome with
  | failed error resume => cases read
  | parsed inner last' rest' =>
    cases read
    exact ⟨inner, rfl, rfl⟩

/-- What was read in two steps was read in each of them. -/
theorem reads_andThen {s : Scan β input}
    {next : (value : β) → (last : Token) → (rest : List Token) →
      rest.length < input.length → Scan α (last :: rest)}
    (read : (s.andThen next).Reads value last rest) :
    ∃ first last' rest' shorter, s.Reads first last' rest' ∧
      (next first last' rest' shorter).Reads value last rest := by
  obtain ⟨⟨recorded, outcome⟩, ending⟩ := s
  cases outcome with
  | failed error resume => cases read
  | parsed first last' rest' =>
    obtain ⟨noted, later⟩ := Reading.mk.inj read
    obtain ⟨rfl, quiet⟩ := List.append_eq_nil_iff.mp noted
    refine ⟨first, last', rest', rest_length_lt ending, rfl, ?_⟩
    exact congrArg₂ Reading.mk quiet later

theorem reads_orElse {s : Scan β input}
    {next : (value : β) → (last : Token) → (rest : List Token) →
      rest.length < input.length → Scan α (last :: rest)}
    {instead : (resume : List Token) → resume <:+ input → Scan α input}
    (read : (s.orElse next instead).Reads value last rest) :
    ∃ first last' rest' shorter, s.Reads first last' rest' ∧
      (next first last' rest' shorter).Reads value last rest := by
  obtain ⟨⟨recorded, outcome⟩, ending⟩ := s
  cases outcome with
  | failed error resume =>
    obtain ⟨noted, _⟩ := Reading.mk.inj read
    simp at noted
  | parsed first last' rest' => exact reads_andThen read

end Scan

theorem expect_sound {final last last' t : Token} {kind : Token.Kind} {rest rest' : List Token}
    (read : (expect final kind last rest).Reads t last' rest') :
    rest = t :: rest' ∧ t.kind = kind ∧ last' = t := by
  unfold expect at read
  split at read
  · exact absurd read Scan.not_reads_fail
  · next u tail =>
    by_cases same : u.kind = kind
    · rw [if_pos same] at read
      obtain ⟨rfl, rfl, rfl⟩ := Scan.reads_done read
      exact ⟨rfl, same, rfl⟩
    · rw [if_neg same] at read
      exact absurd read Scan.not_reads_fail

theorem optionalSemicolon_sound {value value' : α} {last last' : Token} {rest rest' : List Token}
    (read : (optionalSemicolon value last rest).Reads value' last' rest') :
    value' = value ∧ ∃ us, Grammar.Semicolon us ∧ rest = us ++ rest' := by
  unfold optionalSemicolon at read
  split at read
  · obtain ⟨rfl, rfl, rfl⟩ := Scan.reads_done read
    exact ⟨rfl, [], .omitted, rfl⟩
  · next t tail =>
    by_cases ends : t.kind = .symbol .semicolon
    · rw [if_pos ends] at read
      obtain ⟨rfl, rfl, rfl⟩ := Scan.reads_done read
      exact ⟨rfl, [_], .written ends, rfl⟩
    · rw [if_neg ends] at read
      obtain ⟨rfl, rfl, rfl⟩ := Scan.reads_done read
      exact ⟨rfl, [], .omitted, rfl⟩

theorem parameter_sound {final last : Token} {name : String} {rest : List Token}
    (read : (parameter final input).Reads name last rest) :
    ∃ t, input = t :: rest ∧ t.kind = .ident ∧ name = t.literal := by
  unfold parameter at read
  split at read
  · exact absurd read Scan.not_reads_fail
  · next t tail =>
    by_cases named : t.kind = .ident
    · rw [if_pos named] at read
      obtain ⟨rfl, rfl, rfl⟩ := Scan.reads_done read
      exact ⟨_, rfl, named, rfl⟩
    · rw [if_neg named] at read
      exact absurd read Scan.not_reads_fail

section Lists

variable {final : Token} {bound : Nat}
  {item : (input : List Token) → input.length < bound → Scan α input}
  {itemRule : α → List Token → Prop} {listRule : List α → List Token → Prop}

/-- A list is built of items and commas. `one` and `more` are the rules that build it. -/
theorem items_sound (one : ∀ value ts, itemRule value ts → listRule [value] ts)
    (more : ∀ value next values comma ts us, itemRule value ts → comma.kind = .symbol .comma →
      listRule (next :: values) us → listRule (value :: next :: values) (ts ++ comma :: us))
    (input : List Token) (small : input.length < bound)
    (each : ∀ part small value last rest, part.length ≤ input.length →
      (item part small).Reads value last rest → ∃ ts, part = ts ++ rest ∧ itemRule value ts)
    {values : List α} {last : Token} {rest : List Token}
    (read : (items final bound item input small).Reads values last rest) :
    values ≠ [] ∧ last.kind = .symbol .rightParen ∧ ∃ ts, input = ts ++ last :: rest ∧ listRule values ts := by
  rw [items] at read
  obtain ⟨value, last', rest', shorter, first, later⟩ := Scan.reads_andThen read
  obtain ⟨ts, rfl, holds⟩ := each input small value last' rest' (Nat.le_refl _) first
  cases rest' with
  | nil => exact absurd later Scan.not_reads_fail
  | cons t tail =>
    dsimp only at later
    have shrinks : tail.length < (ts ++ t :: tail).length := Nat.lt_of_succ_lt shorter
    by_cases comma : t.kind = .symbol .comma
    · rw [if_pos comma, Scan.reads_behind, Scan.reads_behind] at later
      obtain ⟨others, found, rfl⟩ := Scan.reads_map later
      have apart := items_sound one more tail (by omega)
        (fun part small value last rest le => each part small value last rest (by omega)) found
      obtain ⟨some, closes, us, rfl, listed⟩ := apart
      obtain ⟨next, others, rfl⟩ := List.exists_cons_of_ne_nil some
      refine ⟨List.cons_ne_nil _ _, closes, ts ++ t :: us, ?_, more _ _ _ _ _ _ holds comma listed⟩
      rw [List.append_assoc, List.cons_append]
    · rw [if_neg comma] at later
      by_cases closes : t.kind = .symbol .rightParen
      · rw [if_pos closes] at later
        obtain ⟨rfl, rfl, rfl⟩ := Scan.reads_done later
        exact ⟨List.cons_ne_nil _ _, closes, ts, rfl, one _ _ holds⟩
      · rw [if_neg closes] at later
        exact absurd later Scan.not_reads_fail
termination_by input.length

variable (itemRule listRule) in
theorem delimited_sound {opening : Token} {input : List Token}
    {item : (part : List Token) → part.length < input.length + 1 → Scan α part}
    (none : listRule [] []) (one : ∀ value ts, itemRule value ts → listRule [value] ts)
    (more : ∀ value next values comma ts us, itemRule value ts → comma.kind = .symbol .comma →
      listRule (next :: values) us → listRule (value :: next :: values) (ts ++ comma :: us))
    (each : ∀ part small value last rest, (item part small).Reads value last rest →
      ∃ ts, part = ts ++ rest ∧ itemRule value ts)
    {values : List α} {last : Token} {rest : List Token}
    (read : (delimited final opening input item).Reads values last rest) :
    last.kind = .symbol .rightParen ∧ ∃ ts, input = ts ++ last :: rest ∧ listRule values ts := by
  have listed {input : List Token} {bound : Nat} {small : input.length < bound}
      {item : (part : List Token) → part.length < bound → Scan α part}
      (each : ∀ part small value last rest, (item part small).Reads value last rest →
        ∃ ts, part = ts ++ rest ∧ itemRule value ts)
      (read : (items final bound item input small).Reads values last rest) :=
    (items_sound one more input small (fun part small value last rest _ => each part small value last rest)
      read).2
  rw [delimited.eq_def] at read
  cases input with
  | nil => exact listed each (Scan.reads_behind.mp read)
  | cons t tail =>
    dsimp only at read
    by_cases closes : t.kind = .symbol .rightParen
    · rw [if_pos closes] at read
      obtain ⟨rfl, rfl, rfl⟩ := Scan.reads_done read
      exact ⟨closes, [], rfl, none⟩
    · rw [if_neg closes] at read
      exact listed each (Scan.reads_behind.mp read)

end Lists

open Grammar (Derives)

theorem header_sound {final last last' : Token} {params : List String} {rest rest' : List Token}
    (read : (header final last rest).Reads params last' rest') :
    ∃ opening closing ps, rest = opening :: (ps ++ closing :: last' :: rest') ∧
      opening.kind = .symbol .leftParen ∧ closing.kind = .symbol .rightParen ∧
      last'.kind = .symbol .leftBrace ∧ Derives (.params params) ps := by
  unfold header at read
  obtain ⟨_, opening, tail, _, first, later⟩ := Scan.reads_andThen read
  obtain ⟨rfl, opens, rfl⟩ := expect_sound first
  obtain ⟨names, closing, tail', _, listed, last⟩ := Scan.reads_andThen later
  obtain ⟨brace, found, rfl⟩ := Scan.reads_map last
  obtain ⟨rfl, braced, rfl⟩ := expect_sound found
  have sound := delimited_sound (fun name ts => ∃ t, ts = [t] ∧ t.kind = .ident ∧ name = t.literal)
    (fun names ts => Derives (.params names) ts) .noParams
    (by
      rintro name ts ⟨t, rfl, named, rfl⟩
      exact .lastParam named)
    (by
      rintro name next names comma ts us ⟨t, rfl, named, rfl⟩ separates others
      exact .moreParams named separates others)
    (by
      intro part small name last rest read
      obtain ⟨t, rfl, named, same⟩ := parameter_sound read
      exact ⟨[t], rfl, t, rfl, named, same⟩) listed
  obtain ⟨closes, ps, rfl, derived⟩ := sound
  exact ⟨opening, closing, ps, rfl, opens, closes, braced, derived⟩

theorem integer?_sound {t : Token} {value : Int} (read : integer? t.literal = some value) :
    value = t.number ∧ t.number < 2 ^ 63 := by
  unfold integer? at read
  change (if t.number ≤ 9223372036854775807 then some (t.number : Int) else none) = some value at read
  by_cases fits : t.number ≤ 9223372036854775807
  · rw [if_pos fits] at read
    exact ⟨(Option.some.inj read).symm, by omega⟩
  · rw [if_neg fits] at read
    cases read

/-- Only signs stand for operators. -/
theorem kind_of_operator {kind : Token.Kind} {op : Operator} (found : Operator.ofKind? kind = some op) :
    kind = .symbol (Rendering.sign op) := by
  unfold Operator.ofKind? at found
  split at found <;> cases found <;> rfl

/-- What binds and is no operator opens a call. -/
theorem leftParen_of_binds {kind : Token.Kind} {level : Level} (tight : level < levelOf kind)
    (none : Operator.ofKind? kind = none) : kind = .symbol .leftParen := by
  by_contra other
  unfold levelOf at tight
  rw [if_neg other, none] at tight
  exact absurd tight (Nat.not_lt_zero _)

/-- What is known of the expressions in fewer than `bound` tokens. -/
def ExpressionsSound (final : Token) (depth bound : Nat) : Prop :=
  ∀ input e last rest, input.length < bound → (expression final depth .lowest input).Reads e last rest →
    ∃ ts, input = ts ++ rest ∧ Derives (.expr 1 e) ts

/-- What is known of the blocks whose brace has fewer than `bound` tokens behind it. -/
def BlocksSound (final : Token) (depth bound : Nat) : Prop :=
  ∀ brace input b last rest, input.length < bound → brace.kind = .symbol .leftBrace →
    (block final depth brace input).Reads b last rest → ∃ ts, brace :: input = ts ++ rest ∧ Derives (.block b) ts

/-- An expression and an optional semicolon at the end of a statement. -/
theorem ended_sound {s : Scan Expr input} {make : Expr → Stmt} {stmt : Stmt} {last : Token}
    {tokens rest : List Token}
    (read : (s.andThen fun value last rest _ => optionalSemicolon (make value) last rest).Reads
      stmt last rest)
    (each : ∀ value last rest, s.Reads value last rest →
      ∃ ts, tokens = ts ++ rest ∧ Derives (.expr 1 value) ts) :
    ∃ value ts us, tokens = ts ++ (us ++ rest) ∧ Derives (.expr 1 value) ts ∧ Grammar.Semicolon us ∧
      stmt = make value := by
  obtain ⟨value, last', rest', _, first, later⟩ := Scan.reads_andThen read
  obtain ⟨ts, rfl, derived⟩ := each value last' rest' first
  obtain ⟨same, us, ends, rfl⟩ := optionalSemicolon_sound later
  exact ⟨value, ts, us, rfl, derived, ends, same⟩

section Statements

variable {final t last : Token} {depth : Nat} {s : Stmt} {tail rest : List Token}

theorem statement_sound_var (keyword : t.kind = .keyword .var)
    (exprs : ExpressionsSound final depth (t :: tail).length)
    (read : (statement final depth (t :: tail)).Reads s last rest) :
    ∃ ts, t :: tail = ts ++ rest ∧ Derives (.stmt s) ts := by
  rw [statement.eq_def] at read
  simp only [keyword] at read
  obtain ⟨_, name, rest', _, first, later⟩ := Scan.reads_andThen read
  obtain ⟨rfl, named, rfl⟩ := expect_sound first
  cases rest' with
  | nil => exact absurd later Scan.not_reads_fail
  | cons next inner =>
    dsimp only at later
    by_cases ends : next.kind = .symbol .semicolon
    · rw [if_pos ends] at later
      obtain ⟨rfl, rfl, rfl⟩ := Scan.reads_done later
      exact ⟨[t, name, _], rfl, .declare keyword named ends⟩
    · rw [if_neg ends] at later
      by_cases assigns : next.kind = .symbol .assign
      · rw [if_pos assigns, Scan.reads_behind] at later
        have small : inner.length < (t :: name :: next :: inner).length := by
          simp only [List.length_cons]
          omega
        obtain ⟨value, ts, us, rfl, given, ends, rfl⟩ :=
          ended_sound later fun value last rest read => exprs inner value last rest small read
        exact ⟨t :: name :: next :: (ts ++ us), by simp, .initialise keyword named assigns given ends⟩
      · rw [if_neg assigns] at later
        exact absurd later Scan.not_reads_fail

theorem statement_sound_print (keyword : t.kind = .keyword .print)
    (exprs : ExpressionsSound final depth (t :: tail).length)
    (read : (statement final depth (t :: tail)).Reads s last rest) :
    ∃ ts, t :: tail = ts ++ rest ∧ Derives (.stmt s) ts := by
  rw [statement.eq_def] at read
  simp only [keyword] at read
  obtain ⟨_, opening, inner, _, first, read₁⟩ := Scan.reads_andThen read
  obtain ⟨rfl, opens, rfl⟩ := expect_sound first
  obtain ⟨value, last₁, rest₁, _, second, read₂⟩ := Scan.reads_andThen read₁
  have small : inner.length < (t :: opening :: inner).length := by
    simp only [List.length_cons]
    omega
  obtain ⟨ts, rfl, given⟩ := exprs inner value last₁ rest₁ small second
  obtain ⟨_, closing, rest₂, _, third, read₃⟩ := Scan.reads_andThen read₂
  obtain ⟨rfl, closes, rfl⟩ := expect_sound third
  obtain ⟨rfl, us, ends, rfl⟩ := optionalSemicolon_sound read₃
  exact ⟨t :: opening :: (ts ++ closing :: us), by simp, .print keyword opens given closes ends⟩

theorem statement_sound_cond (keyword : t.kind = .keyword .cond)
    (exprs : ExpressionsSound final depth (t :: tail).length)
    (blocks : BlocksSound final depth (t :: tail).length)
    (read : (statement final depth (t :: tail)).Reads s last rest) :
    ∃ ts, t :: tail = ts ++ rest ∧ Derives (.stmt s) ts := by
  rw [statement.eq_def] at read
  simp only [keyword] at read
  obtain ⟨condition, last₁, rest₁, _, first, read₁⟩ := Scan.reads_andThen read
  obtain ⟨ts, rfl, test⟩ := exprs tail condition last₁ rest₁ (by simp) first
  obtain ⟨_, brace, rest₂, _, second, read₂⟩ := Scan.reads_andThen read₁
  obtain ⟨rfl, opens, rfl⟩ := expect_sound second
  obtain ⟨yes, last₃, rest₃, shorter, third, read₃⟩ := Scan.reads_andThen read₂
  obtain ⟨bs, whole, taken⟩ := blocks brace rest₂ yes last₃ rest₃ (by simp; omega) opens third
  have alone : ∃ us, t :: (ts ++ brace :: rest₂) = us ++ rest₃ ∧
      Derives (.stmt (.branch condition yes none t.location)) us :=
    ⟨t :: (ts ++ bs), by simp [whole], .branch keyword test taken⟩
  cases rest₃ with
  | nil =>
    obtain ⟨rfl, rfl, rfl⟩ := Scan.reads_done read₃
    exact alone
  | cons next inner =>
    dsimp only at read₃
    by_cases otherwise : next.kind = .ident ∧ next.literal = "else"
    · rw [if_pos otherwise, Scan.reads_behind] at read₃
      obtain ⟨_, brace', rest₄, _, fourth, read₄⟩ := Scan.reads_andThen read₃
      obtain ⟨rfl, opens', rfl⟩ := expect_sound fourth
      obtain ⟨no, fifth, rfl⟩ := Scan.reads_map read₄
      have small : rest₄.length < (t :: (ts ++ brace :: rest₂)).length := by
        simp only [List.length_cons, List.length_append] at shorter ⊢
        omega
      obtain ⟨cs, whole', untaken⟩ := blocks brace' rest₄ no last rest small opens' fifth
      refine ⟨t :: (ts ++ (bs ++ next :: cs)), ?_,
        .choice keyword test taken otherwise.1 otherwise.2 untaken⟩
      simp [whole, whole']
    · rw [if_neg otherwise] at read₃
      obtain ⟨rfl, rfl, rfl⟩ := Scan.reads_done read₃
      exact alone

theorem statement_sound_foreign (keyword : t.kind = .keyword .foreign)
    (read : (statement final depth (t :: tail)).Reads s last rest) :
    ∃ ts, t :: tail = ts ++ rest ∧ Derives (.stmt s) ts := by
  rw [statement.eq_def] at read
  simp only [keyword] at read
  obtain ⟨_, name, rest', _, first, later⟩ := Scan.reads_andThen read
  obtain ⟨rfl, named, rfl⟩ := expect_sound first
  cases rest' with
  | nil => exact absurd later Scan.not_reads_fail
  | cons next inner =>
    dsimp only at later
    by_cases ends : next.kind = .symbol .semicolon
    · rw [if_pos ends] at later
      obtain ⟨rfl, rfl, rfl⟩ := Scan.reads_done later
      exact ⟨[t, name, _], rfl, .foreign keyword named ends⟩
    · rw [if_neg ends] at later
      exact absurd later Scan.not_reads_fail

theorem statement_sound_ret (keyword : t.kind = .keyword .ret)
    (exprs : ExpressionsSound final depth (t :: tail).length)
    (read : (statement final depth (t :: tail)).Reads s last rest) :
    ∃ ts, t :: tail = ts ++ rest ∧ Derives (.stmt s) ts := by
  rw [statement.eq_def] at read
  simp only [keyword] at read
  cases tail with
  | nil =>
    obtain ⟨rfl, rfl, rfl⟩ := Scan.reads_done read
    exact ⟨[_], rfl, .leave keyword .omitted⟩
  | cons next inner =>
    dsimp only at read
    by_cases ends : next.kind = .symbol .semicolon
    · rw [if_pos ends] at read
      obtain ⟨rfl, rfl, rfl⟩ := Scan.reads_done read
      exact ⟨[t, _], rfl, .leave keyword (.written ends)⟩
    · rw [if_neg ends] at read
      by_cases closes : next.kind = .symbol .rightBrace
      · rw [if_pos closes] at read
        obtain ⟨rfl, rfl, rfl⟩ := Scan.reads_done read
        exact ⟨[_], rfl, .leave keyword .omitted⟩
      · rw [if_neg closes] at read
        have small : (next :: inner).length < (t :: next :: inner).length := by simp
        obtain ⟨value, ts, us, whole, given, ends, rfl⟩ :=
          ended_sound read fun value last rest read => exprs (next :: inner) value last rest small read
        exact ⟨t :: (ts ++ us), by simp [whole], .ret keyword given ends⟩

theorem statement_sound_func {next : Token} (keyword : t.kind = .keyword .func) (named : next.kind = .ident)
    (blocks : BlocksSound final depth (t :: next :: tail).length)
    (read : (statement final depth (t :: next :: tail)).Reads s last rest) :
    ∃ ts, t :: next :: tail = ts ++ rest ∧ Derives (.stmt s) ts := by
  rw [statement.eq_def] at read
  simp only [keyword, named, and_self, ↓reduceIte, Scan.reads_behind] at read
  obtain ⟨params, brace, rest', _, first, later⟩ := Scan.reads_andThen read
  obtain ⟨opening, closing, ps, rfl, opens, closes, braced, listed⟩ := header_sound first
  obtain ⟨body, found, rfl⟩ := Scan.reads_map later
  obtain ⟨bs, whole, inside⟩ := blocks brace rest' body last rest (by simp; omega) braced found
  refine ⟨t :: next :: opening :: (ps ++ closing :: bs), ?_, .func keyword named opens listed closes inside⟩
  simp [whole]

theorem statement_sound_assign {next : Token} (named : t.kind = .ident) (assigns : next.kind = .symbol .assign)
    (exprs : ExpressionsSound final depth (t :: next :: tail).length)
    (read : (statement final depth (t :: next :: tail)).Reads s last rest) :
    ∃ ts, t :: next :: tail = ts ++ rest ∧ Derives (.stmt s) ts := by
  rw [statement.eq_def] at read
  simp only [assigns, named, reduceCtorEq, and_self, ↓reduceIte, Scan.reads_behind] at read
  have small : tail.length < (t :: next :: tail).length := by
    simp only [List.length_cons]
    omega
  obtain ⟨value, ts, us, rfl, given, ends, rfl⟩ :=
    ended_sound read fun value last rest read => exprs tail value last rest small read
  exact ⟨t :: next :: (ts ++ us), by simp, .assign named assigns given ends⟩

end Statements

mutual

theorem expression_sound (final : Token) (depth : Nat) (level : Level) (input : List Token)
    {e : Expr} {last : Token} {rest : List Token}
    (read : (expression final depth level input).Reads e last rest) :
    (∃ ts, input = ts ++ rest ∧ Derives (.expr (level.rank + 1) e) ts) ∧ binding rest ≤ level.rank := by
  rw [expression] at read
  obtain ⟨left, last', rest', shorter, first, later⟩ := Scan.reads_andThen read
  obtain ⟨front, rfl, derived⟩ := operand_sound final depth input first
  have low : level.rank < 5 := by cases level <;> decide
  have weak : binding rest' ≤ 5 := by
    unfold binding
    split
    · exact Nat.zero_le 5
    · next t _ => cases levelOf t.kind <;> decide
  obtain ⟨⟨ts, rfl, whole⟩, ends⟩ := climb_sound final depth level left last' rest' derived low weak later
  exact ⟨⟨front ++ ts, (List.append_assoc _ _ _).symm, whole⟩, ends⟩
termination_by 8 * input.length + 2
decreasing_by all_goals omega

theorem operand_sound (final : Token) (depth : Nat) (input : List Token)
    {e : Expr} {last : Token} {rest : List Token}
    (read : (operand final depth input).Reads e last rest) :
    ∃ ts, input = ts ++ rest ∧ Derives (.expr 5 e) ts := by
  rw [operand.eq_def] at read
  cases input with
  | nil => exact absurd read Scan.not_reads_fail
  | cons t tail =>
    dsimp only at read
    split at read
    · next name =>
      obtain ⟨rfl, rfl, rfl⟩ := Scan.reads_done read
      exact ⟨[_], rfl, .ident name⟩
    · next digits =>
      split at read
      · next found =>
        obtain ⟨rfl, rfl, rfl⟩ := Scan.reads_done read
        obtain ⟨rfl, fits⟩ := integer?_sound found
        exact ⟨[_], rfl, .number digits fits⟩
      · exact absurd read Scan.not_reads_fail
    · next string =>
      obtain ⟨rfl, rfl, rfl⟩ := Scan.reads_done read
      exact ⟨[_], rfl, .text string⟩
    · next opens =>
      obtain ⟨inner, last', rest', _, first, later⟩ := Scan.reads_andThen read
      obtain ⟨⟨ts, rfl, inside⟩, _⟩ := expression_sound final depth .lowest tail (Scan.reads_behind.mp first)
      obtain ⟨closing, found, rfl⟩ := Scan.reads_map later
      obtain ⟨rfl, closes, rfl⟩ := expect_sound found
      exact ⟨t :: (ts ++ [last]), by simp, .paren opens inside closes⟩
    · next keyword =>
      obtain ⟨params, brace, rest', shorter, first, later⟩ := Scan.reads_andThen read
      obtain ⟨opening, closing, ps, rfl, opens, closes, braced, listed⟩ := header_sound first
      obtain ⟨body, found, rfl⟩ := Scan.reads_map later
      obtain ⟨bs, whole, inside⟩ := block_sound final depth brace rest' braced found
      refine ⟨t :: opening :: (ps ++ closing :: bs), ?_, .lambda keyword opens listed closes inside⟩
      simp [whole]
    · exact absurd read Scan.not_reads_fail
    · exact absurd read Scan.not_reads_fail
termination_by 8 * input.length + 1
decreasing_by
  all_goals subst_vars
  all_goals simp only [List.length_cons, List.length_append]
  all_goals omega

/-- The left operand was derived from `front`, at a level that nothing behind it exceeds. -/
theorem climb_sound (final : Token) (depth : Nat) (level : Level) (left : Expr) (last : Token)
    (input : List Token) {front : List Token} {reached : Nat} (derived : Derives (.expr reached left) front)
    (above : level.rank < reached) (weak : binding input ≤ reached)
    {e : Expr} {last' : Token} {rest : List Token}
    (read : (climb final depth level left last input).Reads e last' rest) :
    (∃ ts, input = ts ++ rest ∧ Derives (.expr (level.rank + 1) e) (front ++ ts)) ∧
      binding rest ≤ level.rank := by
  rw [climb.eq_def] at read
  cases input with
  | nil =>
    obtain ⟨rfl, rfl, rfl⟩ := Scan.reads_done read
    refine ⟨⟨[], rfl, ?_⟩, Nat.zero_le _⟩
    rw [List.append_nil]
    exact derived.loosen above
  | cons t tail =>
    dsimp only at read
    by_cases tight : level < levelOf t.kind
    · rw [if_pos tight] at read
      cases found : Operator.ofKind? t.kind with
      | some op =>
        have between := kind_of_operator found
        have binds : (levelOf t.kind).rank = Rendering.precedence op := by
          rw [between, Rendering.levelOf_sign, Rendering.rank_level]
        have covers : Rendering.precedence op ≤ reached := binds ▸ weak
        have below : level.rank < Rendering.precedence op := binds ▸ tight
        simp only [found] at read
        obtain ⟨right, last₁, rest₁, shorter, first, later⟩ :=
          Scan.reads_andThen (Scan.reads_behind.mp read)
        obtain ⟨⟨rs, rfl, second⟩, stops⟩ :=
          expression_sound final depth op.level tail (Scan.reads_behind.mp first)
        rw [Rendering.rank_level] at second stops
        -- The right operand ends where nothing binds more tightly than `op`, so what has been
        -- joined is again a left operand at a level that nothing behind it exceeds.
        have joined : Derives (.expr _ (.binary op left right t.location)) (front ++ t :: rs) :=
          .binary (derived.loosen covers) between second
        obtain ⟨⟨ts, rfl, whole⟩, ends⟩ :=
          climb_sound final depth level _ last₁ rest₁ joined below stops later
        refine ⟨⟨t :: (rs ++ ts), by simp, ?_⟩, ends⟩
        rwa [List.append_assoc, List.cons_append] at whole
      | none =>
        have opens := leftParen_of_binds tight found
        have binds : (levelOf t.kind).rank = 4 := by rw [opens]; rfl
        have covers : 4 ≤ reached := binds ▸ weak
        have below : level.rank < 4 := binds ▸ tight
        simp only [found] at read
        obtain ⟨args, last₁, rest₁, shorter, first, later⟩ :=
          Scan.reads_andThen (Scan.reads_behind.mp read)
        obtain ⟨closes, ts, rfl, given⟩ := delimited_sound
          (fun e ts => Derives (.expr 1 e) ts) (fun es ts => Derives (.args es) ts)
          .noArgs (fun _ _ => .lastArg) (fun _ _ _ _ _ _ => .moreArgs)
          (fun part small value last rest read => (expression_sound final depth .lowest part read).1) first
        have called : Derives (.expr 4 (.call left args t.location)) _ :=
          .call (derived.loosen covers) opens given closes
        -- Nothing binds more tightly than a call.
        have stops : binding rest₁ ≤ 4 := by
          unfold binding
          split
          · exact Nat.zero_le 4
          · next u _ => cases levelOf u.kind <;> decide
        obtain ⟨⟨us, rfl, whole⟩, ends⟩ :=
          climb_sound final depth level _ last₁ rest₁ called below stops later
        refine ⟨⟨t :: (ts ++ last₁ :: us), by simp, ?_⟩, ends⟩
        simpa using whole
    · rw [if_neg tight] at read
      obtain ⟨rfl, rfl, rfl⟩ := Scan.reads_done read
      refine ⟨⟨[], rfl, ?_⟩, Nat.le_of_not_lt tight⟩
      rw [List.append_nil]
      exact derived.loosen above
termination_by 8 * input.length
decreasing_by
  all_goals subst_vars
  all_goals simp only [List.length_cons, List.length_append]
  all_goals omega

theorem block_sound (final : Token) (depth : Nat) (brace : Token) (input : List Token)
    (opens : brace.kind = .symbol .leftBrace) {b : Block} {last : Token} {rest : List Token}
    (read : (block final depth brace input).Reads b last rest) :
    ∃ ts, brace :: input = ts ++ rest ∧ Derives (.block b) ts := by
  rw [block] at read
  obtain ⟨body, found, rfl⟩ := Scan.reads_map read
  obtain ⟨closes, ts, rfl, inside⟩ :=
    statements_sound final (depth + 1) brace.location input (Scan.reads_behind.mp found)
  exact ⟨brace :: (ts ++ [last]), by simp, .block opens inside closes⟩
termination_by 8 * input.length + 6
decreasing_by all_goals omega

theorem statements_sound (final : Token) (depth : Nat) (opened : Location) (input : List Token)
    {ss : List Stmt} {last : Token} {rest : List Token}
    (read : (statements final depth opened input).Reads ss last rest) :
    last.kind = .symbol .rightBrace ∧ ∃ ts, input = ts ++ last :: rest ∧ Derives (.stmts ss) ts := by
  rw [statements.eq_def] at read
  cases input with
  | nil => exact absurd read Scan.not_reads_fail
  | cons t tail =>
    dsimp only at read
    by_cases closes : t.kind = .symbol .rightBrace
    · rw [dif_pos closes] at read
      obtain ⟨rfl, rfl, rfl⟩ := Scan.reads_done read
      exact ⟨closes, [], rfl, .nil⟩
    · rw [dif_neg closes] at read
      obtain ⟨s, last', rest', shorter, first, later⟩ := Scan.reads_orElse read
      obtain ⟨ts, whole, derived⟩ := statement_sound final depth (t :: tail) first
      obtain ⟨others, found, rfl⟩ := Scan.reads_map (Scan.reads_behind.mp later)
      obtain ⟨closes', us, rfl, listed⟩ := statements_sound final depth opened rest' found
      exact ⟨closes', ts ++ us, by rw [whole, List.append_assoc], .cons derived listed⟩
termination_by 8 * input.length + 5
decreasing_by
  all_goals subst_vars
  all_goals omega

theorem statement_sound (final : Token) (depth : Nat) (input : List Token)
    {s : Stmt} {last : Token} {rest : List Token}
    (read : (statement final depth input).Reads s last rest) :
    ∃ ts, input = ts ++ rest ∧ Derives (.stmt s) ts := by
  cases input with
  | nil =>
    rw [statement.eq_def] at read
    exact absurd read Scan.not_reads_fail
  | cons t tail =>
    have exprs : ExpressionsSound final depth (t :: tail).length := fun part e last rest small read =>
      (expression_sound final depth .lowest part read).1
    have blocks : BlocksSound final depth (t :: tail).length := fun brace part b last rest small opens read =>
      block_sound final depth brace part opens read
    cases begins t tail with
    | var keyword => exact statement_sound_var keyword exprs read
    | print keyword => exact statement_sound_print keyword exprs read
    | cond keyword => exact statement_sound_cond keyword exprs blocks read
    | foreign keyword => exact statement_sound_foreign keyword read
    | ret keyword => exact statement_sound_ret keyword exprs read
    | block opens =>
      rw [statement.eq_def] at read
      simp only [opens] at read
      obtain ⟨body, found, rfl⟩ := Scan.reads_map read
      obtain ⟨ts, whole, inside⟩ := blocks t tail body last rest (by simp) opens found
      exact ⟨ts, whole, .nested inside⟩
    | func keyword named => exact statement_sound_func keyword named blocks read
    | assign named assigns => exact statement_sound_assign named assigns exprs read
    | bare other =>
      rw [statement_bare other] at read
      exact bareExpression_sound final depth t tail read
termination_by 8 * input.length + 4
decreasing_by
  all_goals subst_vars
  · omega
  · omega
  all_goals simp only [List.length_cons]
  all_goals omega

theorem bareExpression_sound (final : Token) (depth : Nat) (t : Token) (tail : List Token)
    {s : Stmt} {last : Token} {rest : List Token}
    (read : (bareExpression final depth t tail).Reads s last rest) :
    ∃ ts, t :: tail = ts ++ rest ∧ Derives (.stmt s) ts := by
  rw [bareExpression] at read
  obtain ⟨value, ts, us, whole, given, ends, rfl⟩ := ended_sound read
              fun _ _ _ read => (expression_sound final depth .lowest (t :: tail) read).1
  cases ts with
  | nil => exact absurd rfl (given.ne_nil rfl)
  | cons first ts =>
    obtain ⟨rfl, rfl⟩ := List.cons.inj whole
    exact ⟨t :: (ts ++ us), by simp, .expr given ends⟩
termination_by 8 * (tail.length + 1) + 3
decreasing_by
  simp only [List.length_cons]
  omega

end

/-- A list of tokens without a fault is a list of statements. -/
theorem program_sound (final : Token) (input : List Token) {ss : List Stmt}
    (found : program final input = (ss, [])) : Derives (.stmts ss) input := by
  cases input with
  | nil =>
    rw [program_nil] at found
    cases found
    exact .nil
  | cons t tail =>
    rcases read : (statement final 0 (t :: tail)).val with ⟨recorded, ⟨s, last, rest⟩ | ⟨error, resume⟩⟩
    · have shorter := Scan.rest_length_lt (Scan.suffix_of_parsed read)
      rw [program_of_parsed read] at found
      obtain ⟨rfl, quiet⟩ := Prod.mk.inj found
      obtain ⟨rfl, silent⟩ := List.append_eq_nil_iff.mp quiet
      obtain ⟨ts, whole, derived⟩ := statement_sound final 0 (t :: tail) read
      have others := program_sound final rest (Prod.ext rfl silent)
      rw [whole]
      exact .cons derived others
    · rw [program_of_failed read] at found
      have loud := congrArg Prod.snd found
      simp at loud
termination_by input.length

end Parse

namespace Tokens

theorem scan_final_kind (l : Location) (cs : List Char) : (scan l cs).final.kind = .endOfFile := by
  induction l, cs using scan.induct with
  | case1 l cs place text gap ended =>
    rw [scan_eq, gap, ended]
    rfl
  | case2 l cs place text gap x rest found shorter ih =>
    rw [scan_eq, gap, found]
    exact ih

end Tokens

namespace Program

open Grammar

/-- A program is accepted only if all the tokens in front of the end of its text, in
order, are a derivation of it. So no token is illegal, all brackets are closed, and all
numbers fit a signed word of 64 bits. -/
theorem parse_derives (source : String) (p : Program) (parsed : Program.parse source = .ok p) :
    ∃ ts, (Lexer.ofText source).tokenize.1.filter (·.kind != .endOfFile) = ts ∧
      Derives (.stmts p.statements) ts ∧
      (∀ t ∈ ts, t.kind ≠ .illegal) ∧ closesBrackets [] ts = true ∧
      (∀ t ∈ ts, t.kind = .int → t.number < 2 ^ 63) := by
  have derived : Derives (.stmts p.statements) (Tokens.ofText source).list := by
    have found := read_of_parse parsed
    have quiet : (Program.read source).2 = [] := congrArg Prod.snd found
    exact Parse.program_sound (Tokens.ofText source).final _
      (Prod.ext (congrArg (·.1.statements) found) quiet)
  have admissible := derived.admissible
  have closed := derived.closesBrackets [] []
  rw [List.append_nil] at closed
  have kept : (Lexer.ofText source).tokenize.1.filter (·.kind != .endOfFile) = (Tokens.ofText source).list := by
    have ends : (Tokens.ofText source).final.kind = .endOfFile := Tokens.scan_final_kind _ _
    have others : (Tokens.ofText source).list.filter (·.kind != .endOfFile) = (Tokens.ofText source).list := by
      rw [List.filter_eq_self]
      intro t member
      exact bne_iff_ne.mpr (admissible t member).2.1
    change ((Tokens.ofText source).list ++ [(Tokens.ofText source).final]).filter _ = _
    rw [List.filter_append, others]
    simp [ends]
  exact ⟨_, kept, derived, fun t member => (admissible t member).1, closed,
    fun t member => (admissible t member).2.2⟩

/-- A function with two parameters that is called with two arguments, a comment, and
semicolons that are left out. -/
theorem parse_derives_sample :
    ∃ source p, source = r#"func add(a, b) { return a + b * 2 } // twice the second
        if add(1, 2) == 5 { print("five") } else { }"# ∧
      Program.parse source = .ok p ∧ p.statements.length = 2 ∧
      closesBrackets [] ((Lexer.ofText source).tokenize.1.filter (·.kind != .endOfFile)) = true := by
  generalize given : r#"func add(a, b) { return a + b * 2 } // twice the second
        if add(1, 2) == 5 { print("five") } else { }"# = source
  have evaluated : (match Program.parse source with
      | .ok p => p.statements.length == 2
      | .error _ => false) = true := by
    rw [← given]
    decide +kernel
  cases parsed : Program.parse source with
  | error diagnostics => simp [parsed] at evaluated
  | ok p =>
    rw [parsed] at evaluated
    obtain ⟨ts, kept, _, _, closed, _⟩ := parse_derives source p parsed
    exact ⟨source, p, rfl, parsed, beq_iff_eq.mp evaluated, by rw [kept, closed]⟩

end Program

end ImpToC
