import ImpToC.Proofs.Rendering.Grammar
import ImpToC.Proofs.Spelling

/-!
Tokens that are written with blanks between them are read back. Each one ends where
its blank begins, whatever it is, and no comment can start between two of them.
-/
namespace ImpToC

namespace Gap

/-- One step over a gap. -/
theorem skip_eq (l : Location) (cs : List Char) :
    skip l cs =
      match piece? cs with
      | none => (l, cs)
      | some (piece, rest) => skip (l.after piece) rest := by
  rw [skip]
  split
  · next found => rw [found]
  · next found => simp only [found]

theorem piece?_blank {c : Char} {cs : List Char} (blank : isBlank c = true) :
    piece? (c :: cs) = some ([c], cs) := by
  have other : c ≠ '/' := by
    rintro rfl
    exact absurd blank (by decide)
  rw [piece?.eq_def]
  split
  · next same => cases same
  · next same => exact absurd (List.cons.inj same).1 other
  · next same => exact absurd (List.cons.inj same).1 other
  · next same =>
    cases same
    rw [if_pos blank]

theorem piece?_eq_none {c : Char} {cs : List Char} (solid : isBlank c = false) (other : c ≠ '/') :
    piece? (c :: cs) = none := by
  rw [piece?.eq_def]
  split
  · rfl
  · next same => exact absurd (List.cons.inj same).1 other
  · next same => exact absurd (List.cons.inj same).1 other
  · next same =>
    cases same
    rw [if_neg (by simp [solid])]

theorem isBlank_of_solid {c : Char} {cs : List Char} (solid : piece? (c :: cs) = none) : isBlank c = false := by
  rw [Bool.eq_false_iff]
  intro blank
  rw [piece?_blank blank] at solid
  cases solid

/-- A comment that is no gap is never closed. -/
theorem cutAtClose?_of_solid {body : List Char} (solid : piece? ('/' :: '*' :: body) = none) :
    cutAtClose? body = none := by
  simp only [piece?] at solid
  split at solid
  · cases solid
  · assumption

/-- Blanks are skipped up to whatever is no gap. -/
theorem skip_blanks (l : Location) {gap cs : List Char} (blank : ∀ c ∈ gap, isBlank c = true)
    (solid : piece? cs = none) : (skip l (gap ++ cs)).2 = cs := by
  induction gap generalizing l with
  | nil =>
    rw [List.nil_append, skip_eq, solid]
  | cons c gap ih =>
    rw [List.cons_append, skip_eq, piece?_blank (blank c (by simp))]
    exact ih _ fun d member => blank d (by simp [member])

end Gap

namespace Rendering

/-- What a shape has to be so that it is read back from its spelling. -/
def Shape.Legible (s : Shape) : Prop :=
  match s.kind with
  | .ident => IsName s.literal
  | .int => s.literal.toList ≠ [] ∧ ∀ c ∈ s.literal.toList, Lexeme.isDigit c = true
  | .string => '"' ∉ s.literal.toList
  | .symbol x => s.literal = x.spelling
  | .keyword k => s.literal = k.spelling
  | .illegal | .endOfFile => False

/-- Nothing, or a blank and more. -/
def Apart (rest : List Char) : Prop := ∀ c, rest.head? = some c → Gap.isBlank c = true

/-- What lexing does at the front of a text: no gap, and then this shape. -/
def Shape.ReadsBack (s : Shape) (rest : List Char) : Prop :=
  Gap.piece? (s.spelling ++ rest) = none ∧
    ∃ x, Lexeme.read? (s.spelling ++ rest) = some (x, rest) ∧ (⟨x.kind, String.ofList x.literal⟩ : Shape) = s

theorem isBlank_iff (c : Char) :
    Gap.isBlank c = true ↔ c.toNat = 32 ∨ c.toNat = 9 ∨ c.toNat = 13 ∨ c.toNat = 10 := by
  have same (d : Char) : c = d ↔ c.toNat = d.toNat := Char.toNat_inj.symm
  simp only [Gap.isBlank, Bool.or_eq_true, beq_iff_eq, same, or_assoc]
  rfl

/-- Blanks are no part of words and numbers. -/
theorem Apart.stops {rest : List Char} (apart : Apart rest) :
    (∀ c, rest.head? = some c → Lexeme.isWordChar c = false) ∧
      ∀ c, rest.head? = some c → Lexeme.isDigit c = false := by
  have blank (c : Char) (first : rest.head? = some c) := (isBlank_iff c).mp (apart c first)
  refine ⟨fun c first => ?_, fun c first => ?_⟩
  · have := blank c first
    rw [Bool.eq_false_iff, ne_eq, Lexeme.isWordChar_iff]
    omega
  · have := blank c first
    rw [Bool.eq_false_iff, ne_eq, Lexeme.isDigit_iff]
    omega

theorem read?_word {c : Char} {cs : List Char} (letter : Lexeme.isWordChar c = true) :
    Lexeme.read? (c :: cs) =
      some (.ofWord (c :: cs.takeWhile Lexeme.isWordChar), cs.dropWhile Lexeme.isWordChar) := by
  have other {d : Char} (wrong : Lexeme.isWordChar d = false) : c ≠ d := by
    rintro rfl
    rw [letter] at wrong
    cases wrong
  have digit : Lexeme.isDigit c ≠ true := fun digit => by
    rw [Lexeme.isWordChar_of_isDigit digit] at letter
    cases letter
  rw [Lexeme.read?, if_neg (other (by decide)), if_neg (other (by decide)), if_neg (other (by decide)),
    if_neg (other (by decide)), if_neg (other (by decide)), if_neg digit, if_pos letter]

theorem read?_digit {c : Char} {cs : List Char} (digit : Lexeme.isDigit c = true) :
    Lexeme.read? (c :: cs) =
      some (.whole .int (c :: cs.takeWhile Lexeme.isDigit), cs.dropWhile Lexeme.isDigit) := by
  have other {d : Char} (wrong : Lexeme.isDigit d = false) : c ≠ d := by
    rintro rfl
    rw [digit] at wrong
    cases wrong
  rw [Lexeme.read?, if_neg (other (by decide)), if_neg (other (by decide)), if_neg (other (by decide)),
    if_neg (other (by decide)), if_neg (other (by decide)), if_pos digit]

/-- Letters and digits neither are blank nor open a comment. -/
theorem piece?_solid {c : Char} {cs : List Char}
    (solid : Lexeme.isWordChar c = true ∨ Lexeme.isDigit c = true) : Gap.piece? (c :: cs) = none := by
  rw [Lexeme.isWordChar_iff, Lexeme.isDigit_iff] at solid
  refine Gap.piece?_eq_none ?_ ?_
  · rw [Bool.eq_false_iff, ne_eq, isBlank_iff]
    omega
  · rintro rfl
    exact absurd solid (by decide)

/-- A word is read back as the keyword that it spells, or else as a name. -/
theorem readsBack_word {s : Shape} {rest : List Char} (plain : s.kind ≠ .string)
    (word : IsWord s.literal)
    (kind : s.kind = ((Keyword.ofWord? s.literal).map Token.Kind.keyword).getD .ident)
    (apart : Apart rest) : s.ReadsBack rest := by
  obtain ⟨found, literal⟩ := s
  obtain ⟨some, letters⟩ := word
  simp only at plain some letters kind
  obtain ⟨c, cs, shown⟩ := List.exists_cons_of_ne_nil some
  have first : Lexeme.isWordChar c = true := letters c (by simp [shown])
  have others : ∀ d ∈ cs, Lexeme.isWordChar d = true := fun d member => letters d (by simp [shown, member])
  obtain ⟨taken, left⟩ := takeWhile_append_stop others apart.stops.1
  have spelt : Shape.spelling ⟨found, literal⟩ = c :: cs := by rw [Shape.spelling, if_neg plain, shown]
  have back : String.ofList (c :: cs) = literal := by rw [← shown, String.ofList_toList]
  refine ⟨?_, .ofWord (c :: cs), ?_, ?_⟩
  · rw [spelt]
    exact piece?_solid (.inl first)
  · rw [spelt, List.cons_append, read?_word first, taken, left]
  · rw [kind, Lexeme.ofWord, back]
    cases Keyword.ofWord? literal <;> simp [Lexeme.whole, back]

theorem readsBack_number {digits : String} {rest : List Char} (some : digits.toList ≠ [])
    (all : ∀ c ∈ digits.toList, Lexeme.isDigit c = true) (apart : Apart rest) :
    (Shape.number digits).ReadsBack rest := by
  obtain ⟨c, cs, shown⟩ := List.exists_cons_of_ne_nil some
  have first : Lexeme.isDigit c = true := all c (by simp [shown])
  have others : ∀ d ∈ cs, Lexeme.isDigit d = true := fun d member => all d (by simp [shown, member])
  obtain ⟨taken, left⟩ := takeWhile_append_stop others apart.stops.2
  have spelt : (Shape.number digits).spelling = c :: cs := shown
  refine ⟨?_, .whole .int (c :: cs), ?_, ?_⟩
  · rw [spelt]
    exact piece?_solid (.inr first)
  · rw [spelt, List.cons_append, read?_digit first, taken, left]
  · rw [Lexeme.whole, ← shown, String.ofList_toList, Shape.number]

theorem readsBack_text {body : String} {rest : List Char} (free : '"' ∉ body.toList) :
    (Shape.text body).ReadsBack rest := by
  have spelt : (Shape.text body).spelling ++ rest = '"' :: (body.toList ++ '"' :: rest) := by
    change '"' :: (body.toList ++ ['"']) ++ rest = _
    simp
  have inside : ∀ c ∈ body.toList, (c != '"') = true := by
    intro c member
    rw [bne_iff_ne]
    rintro rfl
    exact free member
  have stops : ∀ c, ('"' :: rest).head? = some c → (c != '"') = false := by
    rintro c ⟨⟩
    rfl
  obtain ⟨taken, left⟩ := takeWhile_append_stop inside stops
  refine ⟨?_, ⟨.string, body.toList, '"' :: (body.toList ++ ['"'])⟩, ?_, ?_⟩
  · rw [spelt]
    exact Gap.piece?_eq_none (by decide) (by decide)
  · rw [spelt, Lexeme.read?, if_pos rfl, Lexeme.quoted, taken, left]
  · rw [String.ofList_toList, Shape.text]

/-- A blank is none of the characters that make a symbol longer or open a comment. -/
theorem Apart.other {rest cs : List Char} {d : Char} (apart : Apart rest) (solid : Gap.isBlank d = false) :
    rest ≠ d :: cs := by
  rintro rfl
  rw [apart d rfl] at solid
  cases solid

theorem piece?_symbol (x : Symbol) {rest : List Char} (apart : Apart rest) :
    Gap.piece? (x.spelling.toList ++ rest) = none := by
  cases x
  case slash =>
    change Gap.piece? ('/' :: rest) = none
    rw [Gap.piece?.eq_def]
    split
    · rfl
    · next same => exact absurd (List.cons.inj same).2 (apart.other (by decide))
    · next same => exact absurd (List.cons.inj same).2 (apart.other (by decide))
    · next same =>
      cases same
      rfl
  all_goals exact Gap.piece?_eq_none (by decide) (by decide)

theorem read?_symbol (x : Symbol) {rest : List Char} (apart : Apart rest) :
    Lexeme.read? (x.spelling.toList ++ rest) = some (.ofSymbol x, rest) := by
  have short (y : Lexeme) (long : Symbol) : Lexeme.orEqual y long rest = (y, rest) := by
    unfold Lexeme.orEqual
    split
    · exact absurd rfl (apart.other (by decide))
    · rfl
  cases x
  case assign => exact congrArg some (short _ _)
  case slash =>
    change some (Lexeme.slash rest) = _
    unfold Lexeme.slash
    split
    · exact absurd rfl (apart.other (by decide))
    · rfl
  case dot =>
    change some (Lexeme.dots rest) = _
    unfold Lexeme.dots
    split
    · exact absurd rfl (apart.other (by decide))
    · exact absurd rfl (apart.other (by decide))
    · rfl
  all_goals rfl

/-- Behind a symbol nothing stands that would make it a longer one or a comment. -/
theorem readsBack_symbol (x : Symbol) {rest : List Char} (apart : Apart rest) :
    (Shape.symbol x).ReadsBack rest := by
  refine ⟨piece?_symbol x apart, .ofSymbol x, read?_symbol x apart, ?_⟩
  rw [Lexeme.ofSymbol, Lexeme.whole, String.ofList_toList, Shape.symbol]

theorem Shape.Legible.readsBack {s : Shape} {rest : List Char} (legible : s.Legible)
    (apart : Apart rest) : s.ReadsBack rest := by
  obtain ⟨kind, literal⟩ := s
  cases kind with
  | illegal => exact legible.elim
  | endOfFile => exact legible.elim
  | ident =>
    obtain ⟨word, free⟩ := legible
    exact readsBack_word nofun word (by rw [free]; rfl) apart
  | int => exact readsBack_number legible.1 legible.2 apart
  | string => exact readsBack_text legible
  | symbol x =>
    obtain rfl : literal = x.spelling := legible
    exact readsBack_symbol x apart
  | keyword k =>
    obtain rfl : literal = k.spelling := legible
    have word : IsWord k.spelling := by cases k <;> decide
    have found : Keyword.ofWord? k.spelling = some k := by cases k <;> decide
    exact readsBack_word nofun word (by rw [found]; rfl) apart

end Rendering

/-- Tokens that are written with blanks between them are read back in order. -/
theorem Tokens.scan_spaced (l : Location) {shapes : List Rendering.Shape} {cs : List Char}
    (spaced : Rendering.Spaced shapes cs) (legible : ∀ s ∈ shapes, s.Legible) :
    (Tokens.scan l cs).list.map Token.shape = shapes := by
  induction spaced generalizing l with
  | @nil gap blank =>
    have skipped : (Gap.skip l (gap ++ [])).2 = [] := Gap.skip_blanks l blank rfl
    rw [List.append_nil] at skipped
    rw [Tokens.scan_eq, skipped]
    rfl
  | @cons s shapes gap rest blank apart others ih =>
    obtain ⟨solid, x, found, same⟩ := (legible s (by simp)).readsBack apart
    rw [Tokens.scan_eq, Gap.skip_blanks l blank solid, found]
    have tail := ih ((Gap.skip l (gap ++ (s.spelling ++ rest))).1.after x.text)
      fun s' member => legible s' (by simp [member])
    dsimp only
    rw [List.map_cons, tail, Token.shape, same]

end ImpToC
