import ImpToC.Proofs.Rendering.Grammar
import ImpToC.Proofs.Spelling

/-!
The parser piece by piece, where nothing goes wrong: what it is to read a construct
without a complaint, and one lemma for each way in which a piece of the grammar goes on
to the next. Tokens stand wherever they like.
-/
namespace ImpToC

namespace Parse

variable {α β : Type} {input : List Token}

namespace Scan

/-- A construct is read and nothing is complained about. -/
def Reads (s : Scan α input) (value : α) (last : Token) (rest : List Token) : Prop :=
  s.val = ⟨[], .parsed value last rest⟩

theorem done_reads (value : α) (last : Token) (rest : List Token) :
    (done value last rest).Reads value last rest := rfl

theorem Reads.behind {s : Scan α input} {value : α} {last t : Token} {rest : List Token}
    (read : s.Reads value last rest) : (s.behind t).Reads value last rest := read

theorem Reads.map {s : Scan α input} {value : α} {last : Token} {rest : List Token}
    (read : s.Reads value last rest) (f : α → β) : (s.map f).Reads (f value) last rest := by
  obtain ⟨reading, ending⟩ := s
  obtain rfl : reading = ⟨[], .parsed value last rest⟩ := read
  rfl

/-- What comes after a construct that was read decides. -/
theorem Reads.andThen {s : Scan α input} {value : α} {last : Token} {rest : List Token}
    {next : (value : α) → (last : Token) → (rest : List Token) →
      rest.length < input.length → Scan β (last :: rest)} {r : Reading β}
    (read : s.Reads value last rest) (later : ∀ shorter, (next value last rest shorter).val = r) :
    (s.andThen next).val = r := by
  obtain ⟨reading, ending⟩ := s
  obtain rfl : reading = ⟨[], .parsed value last rest⟩ := read
  exact later (rest_length_lt ending)

theorem Reads.orElse {s : Scan α input} {value : α} {last : Token} {rest : List Token}
    {next : (value : α) → (last : Token) → (rest : List Token) →
      rest.length < input.length → Scan β (last :: rest)}
    {instead : (resume : List Token) → resume <:+ input → Scan β input} {r : Reading β}
    (read : s.Reads value last rest) (later : ∀ shorter, (next value last rest shorter).val = r) :
    (s.orElse next instead).val = r := by
  obtain ⟨reading, ending⟩ := s
  obtain rfl : reading = ⟨[], .parsed value last rest⟩ := read
  exact later (rest_length_lt ending)

end Scan

theorem expect_reads {final last t : Token} {kind : Token.Kind} {rest : List Token}
    (same : t.kind = kind) : (expect final kind last (t :: rest)).Reads t t rest := by
  rw [expect, if_pos same]
  exact (Scan.done_reads t t rest).behind

/-- A semicolon is taken, and nothing else is. -/
theorem optionalSemicolon_none {value : α} {last : Token} {rest : List Token}
    (other : ∀ t, rest.head? = some t → t.kind ≠ .symbol .semicolon) :
    (optionalSemicolon value last rest).Reads value last rest := by
  cases rest with
  | nil => exact Scan.done_reads value last []
  | cons t rest =>
    rw [optionalSemicolon, if_neg (other t rfl)]
    exact Scan.done_reads value last (t :: rest)

theorem optionalSemicolon_some {value : α} {last t : Token} {rest : List Token}
    (same : t.kind = .symbol .semicolon) :
    (optionalSemicolon value last (t :: rest)).Reads value t rest := by
  rw [optionalSemicolon, if_pos same]
  exact (Scan.done_reads value t rest).behind

section Lists

variable {final closing : Token} {item : (input : List Token) → Scan α input} {rest : List Token}

theorem items_last {bound : Nat} {small : input.length < bound} {value : α} {last : Token}
    (read : (item input).Reads value last (closing :: rest)) (ends : closing.kind = .symbol .rightParen) :
    (items final bound (fun input _ => item input) input small).Reads [value] closing rest := by
  rw [items]
  refine read.andThen fun shorter => ?_
  dsimp only
  rw [if_neg (by simp [ends]), if_pos ends]
  rfl

theorem items_more {bound : Nat} {small : input.length < bound} {value : α} {values : List α}
    {last comma : Token} {others : List Token}
    (read : (item input).Reads value last (comma :: others)) (goesOn : comma.kind = .symbol .comma)
    (later : ∀ small, (items final bound (fun input _ => item input) others small).Reads values closing rest) :
    (items final bound (fun input _ => item input) input small).Reads (value :: values) closing rest := by
  rw [items]
  refine read.andThen fun shorter => ?_
  dsimp only
  rw [if_pos goesOn]
  exact (((later _).map (value :: ·)).behind).behind

/-- A list between parentheses: nothing, or items of which the first does not look
like the end. -/
theorem delimited_reads {opening : Token} {values : List α} {ts : List Token}
    (ends : closing.kind = .symbol .rightParen) (empty : ts = [] → values = [])
    (starts : ∀ t, ts.head? = some t → t.kind ≠ .symbol .rightParen)
    (listed : ts ≠ [] → ∀ bound small,
      (items final bound (fun input _ => item input) (ts ++ closing :: rest) small).Reads values closing rest) :
    (delimited final opening (ts ++ closing :: rest) fun input _ => item input).Reads
      values closing rest := by
  cases ts with
  | nil =>
    rw [empty rfl, List.nil_append, delimited, if_pos ends]
    rfl
  | cons t ts =>
    rw [List.cons_append, delimited, if_neg (starts t rfl)]
    exact (listed nofun _ _).behind

end Lists

/-- How tightly the next token binds what stands before it. -/
def binding (rest : List Token) : Nat :=
  match rest with
  | [] => 0
  | t :: _ => (levelOf t.kind).rank

/-- Climbing ends in front of whatever binds no more tightly. -/
theorem climb_stops {final last : Token} {depth : Nat} {level : Level} {left : Expr} {rest : List Token}
    (weak : binding rest ≤ level.rank) :
    (climb final depth level left last rest).Reads left last rest := by
  rw [climb.eq_def]
  cases rest with
  | nil => exact Scan.done_reads left last []
  | cons t rest =>
    have stays : ¬ level < levelOf t.kind := Nat.not_lt.mpr weak
    dsimp only
    rw [if_neg stays]
    exact Scan.done_reads left last (t :: rest)

/-- An operand is what the operators after it work on first. -/
theorem expression_eq_climb {final last : Token} {depth : Nat} {level : Level} {e : Expr} {rest : List Token}
    (read : (operand final depth input).Reads e last rest) :
    (expression final depth level input).val = (climb final depth level e last rest).val := by
  rw [expression]
  exact read.andThen fun _ => rfl

theorem climb_call {final last t closing : Token} {depth : Nat} {level : Level} {left : Expr}
    {args : List Expr} {rest tail : List Token} (opens : t.kind = .symbol .leftParen)
    (tight : level.rank < 4)
    (given : (delimited final t rest fun input _ => expression final depth .lowest input).Reads
      args closing tail) :
    (climb final depth level left last (t :: rest)).val =
      (climb final depth level (.call left args t.location) closing tail).val := by
  have goesOn : level < levelOf t.kind := by
    rw [opens]
    exact tight
  have called : Operator.ofKind? t.kind = none := by rw [opens]; rfl
  rw [climb, if_pos goesOn]
  simp only [called]
  exact given.andThen fun _ => rfl

end Parse

namespace Rendering

open Parse

theorem rank_level (op : Operator) : op.level.rank = precedence op := by cases op <;> rfl

theorem levelOf_sign (op : Operator) : levelOf (.symbol (sign op)) = op.level := by cases op <;> rfl

theorem ofKind?_sign (op : Operator) : Operator.ofKind? (.symbol (sign op)) = some op := by cases op <;> rfl

theorem climb_binary {final last last' t : Token} {depth : Nat} {level : Level} {left right : Expr}
    {op : Operator} {rest tail : List Token} (sign : t.kind = .symbol (sign op))
    (tight : level.rank < precedence op)
    (read : (expression final depth op.level rest).Reads right last' tail) :
    (climb final depth level left last (t :: rest)).val =
      (climb final depth level (.binary op left right t.location) last' tail).val := by
  have goesOn : level < levelOf t.kind := by
    rw [sign, levelOf_sign]
    exact Nat.lt_of_lt_of_eq tight (rank_level op).symm
  have known : Operator.ofKind? t.kind = some op := by rw [sign, ofKind?_sign]
  rw [climb, if_pos goesOn]
  simp only [known]
  exact read.behind.andThen fun _ => rfl

theorem integer?_of_numeral {digits : String} {value : Nat} (read : Numeral digits value)
    (fits : (value : Int) < 2 ^ 63) : integer? digits = some (value : Int) := by
  obtain ⟨_, _, rfl⟩ := read
  refine if_pos ?_
  change Nat.ofDigitChars 10 digits.toList 0 ≤ _
  omega

/-- A shape put somewhere. -/
def Shape.token (s : Shape) (l : Location) : Token := ⟨s.kind, s.literal, l⟩

/-- Tokens of these shapes, whatever their places. -/
def Placed (shapes : List Shape) (ts : List Token) : Prop := ts.map Token.shape = shapes

theorem Placed.nil {ts : List Token} (placed : Placed [] ts) : ts = [] := List.map_eq_nil_iff.mp placed

theorem Placed.cons {s : Shape} {shapes : List Shape} {ts : List Token} (placed : Placed (s :: shapes) ts) :
    ∃ l rest, ts = s.token l :: rest ∧ Placed shapes rest := by
  obtain ⟨t, rest, rfl, same, others⟩ := List.map_eq_cons_iff.mp placed
  subst same
  exact ⟨t.location, rest, rfl, others⟩

theorem Placed.append {first second : List Shape} {ts : List Token} (placed : Placed (first ++ second) ts) :
    ∃ front back, ts = front ++ back ∧ Placed first front ∧ Placed second back := by
  obtain ⟨front, back, rfl, left, right⟩ := List.map_eq_append_iff.mp placed
  exact ⟨front, back, rfl, left, right⟩

theorem Placed.head? {shapes : List Shape} {ts : List Token} (placed : Placed shapes ts) :
    ts.head?.map Token.shape = shapes.head? := by
  rw [← placed, List.head?_map]

theorem names_read {final closing : Token} {words : List String} {rest : List Token} {bound : Nat}
    (some : words ≠ []) (ends : closing.kind = .symbol .rightParen) :
    ∀ {ts : List Token} (small : (ts ++ closing :: rest).length < bound), Placed (names words) ts →
      (items final bound (fun input _ => parameter final input) (ts ++ closing :: rest) small).Reads
        words closing rest := by
  fun_induction names words with
  | case1 => exact absurd rfl some
  | case2 word =>
    intro ts small placed
    obtain ⟨l, tail, rfl, nothing⟩ := placed.cons
    obtain rfl := nothing.nil
    exact items_last (Scan.done_reads word _ _) ends
  | case3 word other words ih =>
    intro ts small placed
    obtain ⟨l, tail, rfl, placed'⟩ := placed.cons
    obtain ⟨m, inner, rfl, others⟩ := placed'.cons
    exact items_more (Scan.done_reads word _ _) rfl fun small => ih nofun small others

theorem names_head? (words : List String) : (names words).head? = words.head?.map .name := by
  fun_cases names words <;> rfl

/-- Parameters and the brace behind them. -/
theorem header_reads {final last brace : Token} {words : List String} {ts rest : List Token}
    (placed : Placed (parameters words) ts) (opens : brace.kind = .symbol .leftBrace) :
    (header final last (ts ++ brace :: rest)).Reads words brace rest := by
  obtain ⟨l, tail, rfl, placed'⟩ := placed.cons
  obtain ⟨inner, back, rfl, named, closes⟩ := placed'.append
  obtain ⟨m, back', rfl, nothing⟩ := closes.cons
  obtain rfl := nothing.nil
  have listed : (delimited final (Shape.token (.symbol .leftParen) l)
      (inner ++ Shape.token (.symbol .rightParen) m :: brace :: rest)
      fun input _ => parameter final input).Reads words (Shape.token (.symbol .rightParen) m)
      (brace :: rest) := by
    have front : inner.head?.map Token.shape = words.head?.map .name := named.head?.trans (names_head? words)
    refine delimited_reads rfl (fun none => ?_) (fun t first => ?_) fun some bound small => ?_
    · subst none
      cases words with
      | nil => rfl
      | cons word words => cases front
    · cases words with
      | nil => cases named.nil ▸ first
      | cons word words =>
        rw [first] at front
        have kind : t.kind = .ident := congrArg Shape.kind (Option.some.inj front)
        simp [kind]
    · exact names_read (fun none => some (by subst none; exact named.nil)) rfl small named
  rw [header, List.cons_append, List.append_assoc]
  refine (expect_reads rfl).andThen fun _ => ?_
  exact listed.andThen fun _ => (expect_reads opens).map fun _ => words

end Rendering

end ImpToC
