import ImpToC.Proofs.Rendering.Tokens

/-!
Which characters of a text belong to which token. A text is gaps and tokens in turn, with
a gap at the end. Gaps hold blanks and complete comments; each token takes as many
characters as it can. Two tokens are cut off by the end of the text, a string and a
comment that are never closed, and they take all of the text that is left. These rules
look at no more than one character behind a token. That lexing follows them is proved
here, and in `Lossless` that nothing else does.
-/
namespace ImpToC

/-- No character of the class comes next. -/
def EndsRun (p : Char → Bool) (rest : List Char) : Prop := ∀ c, rest.head? = some c → p c = false

@[simp] theorem endsRun_nil (p : Char → Bool) : EndsRun p [] := by
  intro c first
  cases first

@[simp] theorem endsRun_cons {p : Char → Bool} {c : Char} {rest : List Char} :
    EndsRun p (c :: rest) ↔ p c = false := by
  simp [EndsRun]

theorem endsRun_dropWhile (p : Char → Bool) (cs : List Char) : EndsRun p (cs.dropWhile p) := by
  induction cs with
  | nil => exact endsRun_nil p
  | cons c cs ih =>
    cases inside : p c with
    | true => simpa [inside] using ih
    | false => simp [inside]

namespace Gap

/-- The bracket that closes a comment. -/
def closing : List Char := ['*', '/']

/-- Blanks and complete comments, one after the other, in front of `rest`. A comment
behind two slashes goes up to the end of its line, which is not a part of it, and a
bracketed one up to its first closing bracket. -/
inductive Fills (rest : List Char) : List Char → Prop where
  | nil : Fills rest []
  | blank {c : Char} {gap : List Char} (blank : isBlank c = true) (more : Fills rest gap) :
      Fills rest (c :: gap)
  | line {body gap : List Char} (inside : '\n' ∉ body) (ends : EndsRun (· != '\n') (gap ++ rest))
      (more : Fills rest gap) : Fills rest ('/' :: '/' :: (body ++ gap))
  | bracketed {body gap : List Char} (inside : ¬ closing <:+: body) (more : Fills rest gap) :
      Fills rest ('/' :: '*' :: (body ++ (closing ++ gap)))

/-- A comment is cut after its first closing bracket. -/
theorem cutAtClose?_eq_some {cs body rest : List Char} (cut : cutAtClose? cs = some (body, rest)) :
    ∃ inside, body = inside ++ closing ∧ ¬ closing <:+: inside := by
  fun_induction cutAtClose? cs generalizing body with
  | case1 => cases cut
  | case2 after =>
    cases cut
    exact ⟨[], rfl, by decide⟩
  | case3 c cs other inner tail found ih =>
    cases cut
    obtain ⟨inside, shown, free⟩ := ih found
    refine ⟨c :: inside, by rw [shown, List.cons_append], ?_⟩
    intro within
    rcases List.infix_cons_iff.mp within with front | later
    · -- The bracket would begin at `c`, and then the cut would have been made there.
      obtain ⟨star, slash⟩ := List.cons_prefix_cons.mp front
      obtain ⟨more, rfl⟩ := slash
      have whole := cutAtClose?_eq_append _ _ _ found
      rw [shown] at whole
      exact other (more ++ closing ++ rest) star.symm (by rw [whole]; simp)
    · exact free later
  | case4 => cases cut

/-- No cut is made where there is no closing bracket. -/
theorem cutAtClose?_eq_none {cs : List Char} (cut : cutAtClose? cs = none) : ¬ closing <:+: cs := by
  fun_induction cutAtClose? cs with
  | case1 => decide
  | case2 => cases cut
  | case3 => cases cut
  | case4 c cs other missing ih =>
    intro within
    rcases List.infix_cons_iff.mp within with front | later
    · obtain ⟨star, slash⟩ := List.cons_prefix_cons.mp front
      obtain ⟨more, rfl⟩ := slash
      exact other more star.symm rfl
    · exact ih missing later

/-- What is skipped in one step joins the gap behind it. -/
theorem Fills.cons_piece {cs piece gap rest : List Char} (cut : piece? cs = some (piece, gap ++ rest))
    (more : Fills rest gap) : Fills rest (piece ++ gap) := by
  unfold piece? at cut
  split at cut
  · cases cut
  · next cs =>
    obtain ⟨rfl, left⟩ := Prod.mk.inj (Option.some.inj cut)
    refine .line ?_ ?_ more
    · intro inside
      have other := List.mem_takeWhile_imp inside
      simp at other
    · rw [← left]
      exact endsRun_dropWhile _ cs
  · split at cut
    · next body after found =>
      obtain ⟨rfl, left⟩ := Prod.mk.inj (Option.some.inj cut)
      obtain ⟨inside, rfl, free⟩ := cutAtClose?_eq_some found
      have shown := Fills.bracketed free more
      simpa only [List.cons_append, List.append_assoc] using shown
    · cases cut
  · next c cs _ _ =>
    split at cut
    · next blank =>
      obtain ⟨rfl, left⟩ := Prod.mk.inj (Option.some.inj cut)
      exact .blank blank more
    · cases cut

/-- What is skipped is a gap, and no other gap follows it. -/
theorem skip_fills (l : Location) (cs : List Char) :
    ∃ gap, cs = gap ++ (skip l cs).2 ∧ (skip l cs).1 = l.after gap ∧ Fills (skip l cs).2 gap ∧
      piece? (skip l cs).2 = none := by
  fun_induction skip l cs with
  | case1 l cs ended => exact ⟨[], rfl, rfl, .nil, ended⟩
  | case2 l cs piece rest found _ ih =>
    obtain ⟨gap, text, place, filled, ended⟩ := ih
    have whole := (piece?_eq_append _ _ _ found).1
    refine ⟨piece ++ gap, ?_, ?_, Fills.cons_piece (by rw [found, ← text]) filled, ended⟩
    · rw [List.append_assoc, ← text]
      exact whole
    · rw [place, Location.after_append]

end Gap

/-- The characters that behind a symbol would make it a longer one or open a comment. -/
def Symbol.extensions : Symbol → List Char
  | .assign => ['=']
  | .slash => ['/', '*']
  | .dot => ['.']
  | _ => []

namespace Lexeme

/-- A character that begins no token of the language and is not blank either. -/
def IsStray (c : Char) : Prop :=
  Gap.isBlank c = false ∧ isDigit c = false ∧ isWordChar c = false ∧
    c ∉ "=!\"+-*/,;:.(){}".toList

/-- The rules for tokens: a kind, the literal, all of the characters, and what follows
them. A word is a keyword if it is spelled like one and a name if it is not. -/
inductive Reads : Token.Kind → List Char → List Char → List Char → Prop where
  | name {word rest : List Char} (some : word ≠ []) (letters : ∀ c ∈ word, isWordChar c = true)
      (free : ∀ k : Keyword, k.spelling.toList ≠ word) (ends : EndsRun isWordChar rest) :
      Reads .ident word word rest
  | keyword {k : Keyword} {rest : List Char} (ends : EndsRun isWordChar rest) :
      Reads (.keyword k) k.spelling.toList k.spelling.toList rest
  | number {digits rest : List Char} (some : digits ≠ []) (all : ∀ c ∈ digits, isDigit c = true)
      (ends : EndsRun isDigit rest) : Reads .int digits digits rest
  | string {body rest : List Char} (inside : '"' ∉ body) :
      Reads .string body ('"' :: (body ++ ['"'])) rest
  | symbol {s : Symbol} {rest : List Char} (ends : EndsRun s.extensions.contains rest) :
      Reads (.symbol s) s.spelling.toList s.spelling.toList rest
  | bang {rest : List Char} (ends : EndsRun (· == '=') rest) : Reads .illegal ['!'] ['!'] rest
  | twoDots {rest : List Char} (ends : EndsRun (· == '.') rest) :
      Reads .illegal ['.', '.'] ['.', '.'] rest
  | stray {c : Char} {rest : List Char} (stray : IsStray c) : Reads .illegal [c] [c] rest
  | openString {body : List Char} (inside : '"' ∉ body) : Reads .illegal ('"' :: body) ('"' :: body) []
  | openComment {body : List Char} (inside : ¬ Gap.closing <:+: body) :
      Reads .illegal ['/', '*'] ('/' :: '*' :: body) []

/-- The token of a lexeme is read by the rules. -/
def IsRead (x : Lexeme) (rest : List Char) : Prop := Reads x.kind x.literal x.text rest

theorem ofWord_isRead {word rest : List Char} (some : word ≠ [])
    (letters : ∀ c ∈ word, isWordChar c = true) (ends : EndsRun isWordChar rest) :
    (ofWord word).IsRead rest := by
  unfold ofWord
  split
  · next k found =>
    have spelt : k.spelling = String.ofList word := by
      simpa using List.find?_some found
    obtain rfl : word = k.spelling.toList := by rw [spelt, String.toList_ofList]
    exact .keyword ends
  · next missing =>
    refine .name some letters (fun k same => ?_) ends
    apply List.find?_eq_none.mp missing k (by cases k <;> decide)
    rw [beq_iff_eq, ← String.ofList_toList (s := k.spelling), same]
    rfl

theorem quoted_isRead (cs : List Char) : (quoted cs).1.IsRead (quoted cs).2 := by
  have inside : '"' ∉ cs.takeWhile (· != '"') := fun member => by
    have other := List.mem_takeWhile_imp member
    simp at other
  unfold quoted
  cases tail : cs.dropWhile (· != '"') with
  | nil => exact .openString inside
  | cons quote rest =>
    have stopped := endsRun_dropWhile (· != '"') cs
    rw [tail, endsRun_cons] at stopped
    obtain rfl : quote = '"' := by simpa using stopped
    exact .string inside

theorem dots_isRead (cs : List Char) : (dots cs).1.IsRead (dots cs).2 := by
  unfold dots
  split
  · exact .symbol (s := .ellipsis) fun _ _ => rfl
  · next rest alone =>
    refine .twoDots ?_
    cases rest with
    | nil => exact endsRun_nil _
    | cons c rest =>
      rw [endsRun_cons, beq_eq_false_iff_ne]
      rintro rfl
      exact alone rest rfl
  · next two one =>
    refine .symbol (s := .dot) ?_
    cases cs with
    | nil => exact endsRun_nil _
    | cons c rest =>
      have other : c ≠ '.' := by
        rintro rfl
        exact one rest rfl
      simp [Symbol.extensions, other]

/-- A slash that opens a comment opens one that is never closed, the others being gaps. -/
theorem slash_isRead {cs : List Char} (solid : Gap.piece? ('/' :: cs) = none) :
    (slash cs).1.IsRead (slash cs).2 := by
  unfold slash
  split
  · next body =>
    exact .openComment (Gap.cutAtClose?_eq_none (Gap.cutAtClose?_of_solid solid))
  · next alone =>
    refine .symbol (s := .slash) ?_
    cases cs with
    | nil => exact endsRun_nil _
    | cons c rest =>
      have star : c ≠ '*' := by
        rintro rfl
        exact alone rest rfl
      have stroke : c ≠ '/' := by
        rintro rfl
        simp [Gap.piece?] at solid
      simp [Symbol.extensions, star, stroke]

theorem orEqual_isRead {short : Lexeme} {long : Symbol} {cs : List Char}
    (alone : EndsRun (· == '=') cs → short.IsRead cs) (both : long.extensions = []) :
    (orEqual short long cs).1.IsRead (orEqual short long cs).2 := by
  unfold orEqual
  split
  · exact .symbol fun c _ => by simp [both]
  · next other =>
    apply alone
    cases cs with
    | nil => exact endsRun_nil _
    | cons c rest =>
      rw [endsRun_cons, beq_eq_false_iff_ne]
      rintro rfl
      exact other rest rfl

/-- Symbols of one character that no other character can follow up. -/
theorem symbol?_extensions {c : Char} {s : Symbol} (found : symbol? c = some s)
    (other : c ∉ ['=', '/', '.']) : s.extensions = [] := by
  unfold symbol? at found
  split at found
  all_goals first | (cases found; rfl) | (cases found; exact absurd (by decide) other) | cases found

theorem isStray_of_symbol? {c : Char} (blank : Gap.isBlank c = false) (digit : isDigit c = false)
    (letter : isWordChar c = false) (plain : c ≠ '"' ∧ c ≠ '!') (missing : symbol? c = none) :
    IsStray c := by
  refine ⟨blank, digit, letter, fun member => ?_⟩
  have known : "=!\"+-*/,;:.(){}".toList.all fun d => d = '"' ∨ d = '!' ∨ (symbol? d).isSome := by
    decide
  rcases of_decide_eq_true (List.all_eq_true.mp known c member) with quote | bang | found
  · exact plain.1 quote
  · exact plain.2 bang
  · rw [missing] at found
    cases found

theorem eq_nil_of_read? {cs : List Char} (ended : read? cs = none) : cs = [] := by
  cases cs with
  | nil => rfl
  | cons c cs =>
    simp only [read?] at ended
    repeat' split at ended
    all_goals cases ended

/-- Whatever is read where no gap is follows the rules. -/
theorem read?_isRead {cs rest : List Char} {x : Lexeme} (solid : Gap.piece? cs = none)
    (found : read? cs = some (x, rest)) : x.IsRead rest := by
  have first {y : Lexeme × List Char} (holds : y.1.IsRead y.2) (same : some y = some (x, rest)) :
      x.IsRead rest := by
    rwa [Option.some.inj same] at holds
  cases cs with
  | nil => simp [read?] at found
  | cons c cs =>
    simp only [read?] at found
    split at found
    · exact first (quoted_isRead cs) found
    next noQuote =>
    split at found
    · exact first (dots_isRead cs) found
    next noDot =>
    split at found
    · next stroke =>
      subst stroke
      exact first (slash_isRead solid) found
    next noSlash =>
    split at found
    · have alone : EndsRun (· == '=') cs → (ofSymbol .assign).IsRead cs := by
        intro ends
        refine Reads.symbol fun d next => ?_
        have other := ends d next
        simpa [Symbol.extensions] using other
      exact first (orEqual_isRead alone rfl) found
    next noEquals =>
    split at found
    · exact first (orEqual_isRead Reads.bang rfl) found
    next noBang =>
    split at found
    · next digit =>
      cases found
      refine Reads.number (List.cons_ne_nil c _) ?_ (endsRun_dropWhile isDigit cs)
      exact List.forall_mem_cons.mpr ⟨digit, fun d => List.mem_takeWhile_imp⟩
    next noDigit =>
    split at found
    · next letter =>
      refine first (ofWord_isRead (List.cons_ne_nil c _) ?_ (endsRun_dropWhile isWordChar cs)) found
      exact List.forall_mem_cons.mpr ⟨letter, fun d => List.mem_takeWhile_imp⟩
    next noLetter =>
    split at found
    · next s known =>
      cases found
      have last := symbol?_extensions known (by simp [noEquals, noSlash, noDot])
      exact Reads.symbol fun d _ => by simp [last]
    · next missing =>
      cases found
      exact Reads.stray (isStray_of_symbol? (Gap.isBlank_of_solid solid) (by simpa using noDigit)
        (by simpa using noLetter) ⟨noQuote, noBang⟩ missing)

end Lexeme

namespace Tokens

/-- The text `cs`, which begins at `l`, is made of gaps and of these tokens in turn and
ends with a gap. Each token has the place of its first character, and `finish` is the
place behind the text. -/
inductive Spell : Location → List Char → List Token → Location → Prop where
  | nil {l : Location} {gap : List Char} (skipped : Gap.Fills [] gap) : Spell l gap [] (l.after gap)
  | cons {l finish : Location} {gap text rest : List Char} {t : Token} {ts : List Token}
      (skipped : Gap.Fills (text ++ rest) gap) (placed : t.location = l.after gap)
      (read : Lexeme.Reads t.kind t.literal.toList text rest)
      (others : Spell (t.location.after text) rest ts finish) :
      Spell l (gap ++ (text ++ rest)) (t :: ts) finish

theorem scan_spell (l : Location) (cs : List Char) :
    Spell l cs (scan l cs).list (scan l cs).final.location := by
  induction l, cs using scan.induct with
  | case1 l cs place text skip ended =>
    obtain ⟨gap, whole, moved, filled, _⟩ := Gap.skip_fills l cs
    rw [scan_eq, skip, ended]
    rw [skip] at whole moved filled
    dsimp only at whole moved filled
    obtain rfl := Lexeme.eq_nil_of_read? ended
    rw [List.append_nil] at whole
    subst whole moved
    exact .nil filled
  | case2 l cs place text skip x rest found shorter ih =>
    obtain ⟨gap, whole, moved, filled, solid⟩ := Gap.skip_fills l cs
    rw [scan_eq, skip, found]
    rw [skip] at whole moved filled solid
    dsimp only at whole moved filled solid
    have shown := Lexeme.read?_isRead solid found
    have parted := Lexeme.read?_eq_append _ _ _ found
    subst whole parted
    refine .cons filled moved ?_ ih
    rw [String.toList_ofList]
    exact shown

end Tokens

end ImpToC
