import ImpToC.Proofs.Lexing.Spans

/-!
Lexing loses nothing. The rules for gaps and tokens fit a text in one way only, and that
is how it is read: the characters of the gaps and of the tokens, one after the other, are
those of the text.
-/
namespace ImpToC

namespace Gap

/-- The cut is made at the first closing bracket. -/
theorem cutAtClose?_append {body : List Char} (inside : ¬ closing <:+: body) (rest : List Char) :
    cutAtClose? (body ++ (closing ++ rest)) = some (body ++ closing, rest) := by
  induction body with
  | nil => rfl
  | cons c body ih =>
    have later : ¬ closing <:+: body := fun within => inside (List.infix_cons within)
    have noEarly : ∀ tail, c = '*' → body ++ (closing ++ rest) = '/' :: tail → False := by
      intro tail star slash
      cases body with
      | nil => simp [closing] at slash
      | cons d body =>
        obtain ⟨rfl, _⟩ := List.cons.inj slash
        apply inside
        exact ⟨[], body, by simp [closing, star]⟩
    rw [List.cons_append, cutAtClose?.eq_3 _ _ noEarly, ih later]
    rfl

/-- A gap is skipped as a whole, up to where no other gap follows. -/
theorem Fills.skip_eq {gap rest : List Char} (filled : Fills rest gap) (solid : piece? rest = none)
    (l : Location) : skip l (gap ++ rest) = (l.after gap, rest) := by
  induction filled generalizing l with
  | nil => rw [List.nil_append, Gap.skip_eq, solid, Location.after_nil]
  | @blank c gap blank more ih =>
    rw [List.cons_append, Gap.skip_eq, piece?_blank blank]
    exact ih (l.after [c])
  | @line body gap inside ends more ih =>
    have all : ∀ c ∈ body, (c != '\n') = true := by
      intro c member
      rw [bne_iff_ne]
      rintro rfl
      exact inside member
    obtain ⟨taken, left⟩ := takeWhile_append_stop all ends
    have cut : piece? ('/' :: '/' :: (body ++ (gap ++ rest))) = some ('/' :: '/' :: body, gap ++ rest) := by
      rw [piece?, taken, left]
    have shape : '/' :: '/' :: (body ++ gap) ++ rest = '/' :: '/' :: (body ++ (gap ++ rest)) := by simp
    rw [shape, Gap.skip_eq, cut]
    dsimp only
    rw [ih, ← Location.after_append]
    rfl
  | @bracketed body gap inside more ih =>
    have cut : piece? ('/' :: '*' :: (body ++ (closing ++ (gap ++ rest)))) =
        some ('/' :: '*' :: (body ++ closing), gap ++ rest) := by
      rw [piece?, cutAtClose?_append inside]
    have shape : '/' :: '*' :: (body ++ (closing ++ gap)) ++ rest =
        '/' :: '*' :: (body ++ (closing ++ (gap ++ rest))) := by simp
    rw [shape, Gap.skip_eq, cut]
    dsimp only
    rw [ih, ← Location.after_append]
    simp

end Gap

namespace Lexeme

/-- At the front of a text there is no gap but this lexeme. -/
def IsNext (x : Lexeme) (rest : List Char) : Prop :=
  Gap.piece? (x.text ++ rest) = none ∧ read? (x.text ++ rest) = some (x, rest)

theorem ofWord_isNext {word rest : List Char} (some : word ≠ [])
    (letters : ∀ c ∈ word, isWordChar c = true) (ends : EndsRun isWordChar rest) :
    (ofWord word).IsNext rest := by
  obtain ⟨c, cs, rfl⟩ := List.exists_cons_of_ne_nil some
  obtain ⟨letter, others⟩ := List.forall_mem_cons.mp letters
  obtain ⟨taken, left⟩ := takeWhile_append_stop others ends
  rw [IsNext, ofWord_text, List.cons_append]
  refine ⟨Rendering.piece?_solid (.inl letter), ?_⟩
  rw [Rendering.read?_word letter, taken, left]

theorem ofWord_name {word : List Char} (free : ∀ k : Keyword, k.spelling.toList ≠ word) :
    ofWord word = ⟨.ident, word, word⟩ := by
  have missing : Keyword.ofWord? (String.ofList word) = none := by
    refine List.find?_eq_none.mpr fun k _ same => free k ?_
    rw [beq_iff_eq.mp same, String.toList_ofList]
  rw [ofWord, missing]
  rfl

theorem ofWord_keyword (k : Keyword) :
    ofWord k.spelling.toList = ⟨.keyword k, k.spelling.toList, k.spelling.toList⟩ := by
  cases k <;> decide

theorem number_isNext {digits rest : List Char} (some : digits ≠ [])
    (all : ∀ c ∈ digits, isDigit c = true) (ends : EndsRun isDigit rest) :
    IsNext ⟨.int, digits, digits⟩ rest := by
  obtain ⟨c, cs, rfl⟩ := List.exists_cons_of_ne_nil some
  obtain ⟨digit, others⟩ := List.forall_mem_cons.mp all
  obtain ⟨taken, left⟩ := takeWhile_append_stop others ends
  refine ⟨Rendering.piece?_solid (.inr digit), ?_⟩
  rw [List.cons_append, Rendering.read?_digit digit, taken, left]
  rfl

theorem bne_quote_of_notMem {body : List Char} (inside : '"' ∉ body) :
    ∀ c ∈ body, (c != '"') = true := by
  intro c member
  rw [bne_iff_ne]
  intro quote
  subst quote
  exact inside member

theorem quoted_append {body : List Char} (inside : '"' ∉ body) (rest : List Char) :
    quoted (body ++ '"' :: rest) = (⟨.string, body, '"' :: (body ++ ['"'])⟩, rest) := by
  have ends : EndsRun (· != '"') ('"' :: rest) := by simp
  obtain ⟨taken, left⟩ := takeWhile_append_stop (bne_quote_of_notMem inside) ends
  rw [quoted, taken, left]

theorem quoted_open {body : List Char} (inside : '"' ∉ body) :
    quoted body = (⟨.illegal, '"' :: body, '"' :: body⟩, []) := by
  have ends : EndsRun (· != '"') [] := by simp
  obtain ⟨taken, left⟩ := takeWhile_append_stop (bne_quote_of_notMem inside) ends
  rw [List.append_nil] at taken left
  rw [quoted, taken, left]
  rfl

theorem orEqual_short {short : Lexeme} {long : Symbol} {rest : List Char} (ends : EndsRun (· == '=') rest) :
    orEqual short long rest = (short, rest) := by
  unfold orEqual
  split
  · simp at ends
  · rfl

/-- Two slashes would be a comment, and so would a slash and a star. -/
theorem slash_isNext {rest : List Char} (ends : EndsRun Symbol.slash.extensions.contains rest) :
    (ofSymbol .slash).IsNext rest := by
  cases rest with
  | nil => exact ⟨rfl, rfl⟩
  | cons c rest =>
    have other : c ≠ '/' ∧ c ≠ '*' := by simpa [Symbol.extensions] using ends
    constructor
    · change Gap.piece? ('/' :: c :: rest) = none
      unfold Gap.piece?
      split
      · rfl
      · next same => exact absurd (List.cons.inj (List.cons.inj same).2).1 other.1
      · next same => exact absurd (List.cons.inj (List.cons.inj same).2).1 other.2
      · next same =>
        cases same
        rfl
    · change some (slash (c :: rest)) = _
      unfold slash
      split
      · next same => exact absurd (List.cons.inj same).1 other.2
      · rfl

theorem dot_isNext {rest : List Char} (ends : EndsRun Symbol.dot.extensions.contains rest) :
    (ofSymbol .dot).IsNext rest := by
  refine ⟨Gap.piece?_eq_none (by decide) (by decide), ?_⟩
  change some (dots rest) = _
  unfold dots
  split
  · simp [Symbol.extensions] at ends
  · simp [Symbol.extensions] at ends
  · rfl

/-- A symbol is read if what follows makes no more of it. -/
theorem symbol_isNext {s : Symbol} {rest : List Char} (ends : EndsRun s.extensions.contains rest) :
    (ofSymbol s).IsNext rest := by
  cases s
  case assign =>
    have alone : EndsRun (· == '=') rest := fun c next => by simpa [Symbol.extensions] using ends c next
    exact ⟨Gap.piece?_eq_none (by decide) (by decide), congrArg some (orEqual_short alone)⟩
  case slash => exact slash_isNext ends
  case dot => exact dot_isNext ends
  all_goals exact ⟨Gap.piece?_eq_none (by decide) (by decide), rfl⟩

theorem twoDots_isNext {rest : List Char} (ends : EndsRun (· == '.') rest) :
    (illegal ['.', '.']).IsNext rest := by
  refine ⟨Gap.piece?_eq_none (by decide) (by decide), ?_⟩
  change some (dots ('.' :: rest)) = _
  unfold dots
  split
  · next same =>
    obtain rfl := (List.cons.inj same).2
    simp at ends
  · next same =>
    cases same
    rfl
  · next one => exact absurd rfl (one rest)

theorem IsStray.ne {c d : Char} (stray : IsStray c) (member : d ∈ "=!\"+-*/,;:.(){}".toList) : c ≠ d := by
  rintro rfl
  exact stray.2.2.2 member

theorem IsStray.symbol?_eq_none {c : Char} (stray : IsStray c) : symbol? c = none := by
  unfold symbol?
  split
  all_goals first | rfl | exact absurd rfl (stray.ne (by decide))

theorem stray_isNext {c : Char} (stray : IsStray c) (rest : List Char) : (illegal [c]).IsNext rest := by
  refine ⟨Gap.piece?_eq_none stray.1 (stray.ne (by decide)), ?_⟩
  change read? (c :: rest) = _
  rw [read?, if_neg (stray.ne (by decide)), if_neg (stray.ne (by decide)), if_neg (stray.ne (by decide)),
    if_neg (stray.ne (by decide)), if_neg (stray.ne (by decide)), if_neg (by simp [stray.2.1]),
    if_neg (by simp [stray.2.2.1]), stray.symbol?_eq_none]

theorem openComment_isNext {body : List Char} (inside : ¬ Gap.closing <:+: body) :
    IsNext ⟨.illegal, ['/', '*'], '/' :: '*' :: body⟩ [] := by
  rw [IsNext, List.append_nil]
  refine ⟨?_, rfl⟩
  rw [Gap.piece?]
  cases cut : Gap.cutAtClose? body with
  | none => rfl
  | some parts =>
    obtain ⟨before, rest⟩ := parts
    have whole := Gap.cutAtClose?_eq_append _ _ _ cut
    obtain ⟨inner, shown, _⟩ := Gap.cutAtClose?_eq_some cut
    exact absurd ⟨inner, rest, by rw [whole, shown]⟩ inside

/-- What the rules read is what lexing finds. -/
theorem Reads.isNext {kind : Token.Kind} {literal text rest : List Char}
    (read : Reads kind literal text rest) : IsNext ⟨kind, literal, text⟩ rest := by
  cases read with
  | name some letters free ends =>
    rw [← ofWord_name free]
    exact ofWord_isNext some letters ends
  | @keyword k _ ends =>
    have letters : k.spelling.toList.all isWordChar := by cases k <;> decide
    rw [← ofWord_keyword k]
    exact ofWord_isNext (by cases k <;> decide) (List.all_eq_true.mp letters) ends
  | number some all ends => exact number_isNext some all ends
  | @string body _ inside =>
    have shape : '"' :: (literal ++ ['"']) ++ rest = '"' :: (literal ++ '"' :: rest) := by simp
    rw [IsNext, shape]
    refine ⟨Gap.piece?_eq_none (by decide) (by decide), ?_⟩
    rw [read?, if_pos rfl, quoted_append inside]
  | symbol ends => exact symbol_isNext ends
  | bang ends => exact ⟨Gap.piece?_eq_none (by decide) (by decide), congrArg some (orEqual_short ends)⟩
  | twoDots ends => exact twoDots_isNext ends
  | stray stray => exact stray_isNext stray rest
  | @openString body inside =>
    rw [IsNext, List.append_nil]
    refine ⟨Gap.piece?_eq_none (by decide) (by decide), ?_⟩
    rw [read?, if_pos rfl, quoted_open inside]
  | openComment inside => exact openComment_isNext inside

end Lexeme

namespace Tokens

/-- The rules leave no choice: what a text is made of is what is read from it. -/
theorem Spell.scan_eq {l finish : Location} {cs : List Char} {ts : List Token}
    (spelt : Spell l cs ts finish) : scan l cs = ⟨ts, .atEnd finish⟩ := by
  induction spelt with
  | @nil l gap skipped =>
    have skip := skipped.skip_eq rfl l
    rw [List.append_nil] at skip
    rw [Tokens.scan_eq, skip]
    rfl
  | @cons l finish gap text rest t ts skipped placed read others ih =>
    obtain ⟨solid, found⟩ := read.isNext
    rw [Tokens.scan_eq, skipped.skip_eq solid l, found]
    dsimp only
    rw [← placed, ih, String.ofList_toList]

/-- The token at the end has nothing of its own but its place. -/
theorem scan_final (l : Location) (cs : List Char) : (scan l cs).final = .atEnd (scan l cs).final.location :=
  congrArg final (scan_spell l cs).scan_eq

end Tokens

/-- The end of the text is no token that the rules read. -/
theorem Lexeme.Reads.kind_ne {kind : Token.Kind} {literal text rest : List Char}
    (read : Reads kind literal text rest) : kind ≠ .endOfFile := by
  cases read <;> simp

theorem Tokens.Spell.kind_ne {l finish : Location} {cs : List Char} {ts : List Token}
    (spelt : Spell l cs ts finish) : ∀ t ∈ ts, t.kind ≠ .endOfFile := by
  induction spelt with
  | nil => simp
  | cons _ _ read _ ih => exact List.forall_mem_cons.mpr ⟨read.kind_ne, ih⟩

namespace Lexer

/-- What `next?` hands out, call after call, until it has nothing left. -/
inductive Streams : Lexer → List Token → Prop where
  | ended {lexer : Lexer} (none : lexer.next?.1 = none) : Streams lexer []
  | token {lexer after : Lexer} {t : Token} {ts : List Token} (next : lexer.next? = (some t, after))
      (more : Streams after ts) : Streams lexer (t :: ts)

/-- The stream gives all tokens, the one at the end once, and then stops. -/
theorem streams_of_spell {l finish : Location} {cs : List Char} {ts : List Token}
    (spelt : Tokens.Spell l cs ts finish) : Streams ⟨l, cs, false⟩ (ts ++ [.atEnd finish]) := by
  induction spelt with
  | @nil l gap skipped =>
    have skip := skipped.skip_eq rfl l
    rw [List.append_nil] at skip
    have next : next? ⟨l, gap, false⟩ = (some (.atEnd (l.after gap)), ⟨l.after gap, [], true⟩) := by
      simp [next?, nextToken, skip, Lexeme.read?, Token.atEnd]
    exact .token next (.ended rfl)
  | @cons l finish gap text rest t ts skipped placed read others ih =>
    obtain ⟨solid, found⟩ := read.isNext
    have next : next? ⟨l, gap ++ (text ++ rest), false⟩ = (some t, ⟨t.location.after text, rest, false⟩) := by
      simp [next?, nextToken, skipped.skip_eq solid l, found, ← placed, read.kind_ne]
    exact .token next ih

/-- Lexing ends, with one token for the end of the text behind all others, and it is what
a stream of tokens gives until it stops. All characters of the text are in the tokens and
in the gaps in front, between and behind them, each token is as long as it can be, and
there is no other way to part the text so. -/
theorem tokenize_lossless (source : String) :
    ∃ tokens finish,
      (Lexer.ofText source).tokenize.1 = tokens ++ [.atEnd finish] ∧
      (∀ t ∈ tokens, t.kind ≠ .endOfFile) ∧
      Streams (Lexer.ofText source) (tokens ++ [.atEnd finish]) ∧
      Tokens.Spell .start source.toList tokens finish ∧
      ∀ others finish', Tokens.Spell .start source.toList others finish' →
        others = tokens ∧ finish' = finish := by
  have spelt := Tokens.scan_spell .start source.toList
  have read : Tokens.ofText source = _ := spelt.scan_eq
  refine ⟨_, _, congrArg Tokens.toList read, spelt.kind_ne, streams_of_spell spelt, spelt, ?_⟩
  · intro others finish' spelt'
    rw [spelt'.scan_eq]
    exact ⟨rfl, rfl⟩

example : (Lexer.ofText "..=/*/*/é//").tokenize.1.map (fun t => (t.kind, t.literal)) =
    [(.illegal, ".."), (.symbol .assign, "="), (.illegal, "é"), (.endOfFile, "")] := by
  decide +kernel

end Lexer

end ImpToC
