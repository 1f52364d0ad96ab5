import ImpToC.Proofs.Lexing.Places

/-!
Lexing undoes writing. Tokens that are written one after the other, with a blank behind
each and behind the blank whatever blanks and comments there may be, are read back. A blank
ends every token, since it is no part of a word, of a number or of a symbol, and what a
string or a comment holds plays no part outside of it.
-/
namespace ImpToC

open Rendering

namespace Gap

/-- Blanks and complete comments in any order. A comment behind two slashes comes with the
line feed that ends it. -/
inductive Mixed : List Char → Prop where
  | nil : Mixed []
  | blank {c : Char} {gap : List Char} (blank : isBlank c = true) (more : Mixed gap) : Mixed (c :: gap)
  | line {body gap : List Char} (inside : '\n' ∉ body) (more : Mixed gap) :
      Mixed ('/' :: '/' :: (body ++ '\n' :: gap))
  | bracketed {body gap : List Char} (inside : ¬ closing <:+: body) (more : Mixed gap) :
      Mixed ('/' :: '*' :: (body ++ (closing ++ gap)))

/-- A mix is a gap in front of any text. -/
theorem Mixed.fills {gap : List Char} (mixed : Mixed gap) (rest : List Char) : Fills rest gap := by
  induction mixed with
  | nil => exact .nil
  | blank blank _ ih => exact .blank blank ih
  | line inside _ ih => exact .line inside (endsRun_cons.mpr (by decide)) (.blank (by decide) ih)
  | bracketed inside _ ih => exact .bracketed inside ih

/-- What keeps two tokens apart: a blank, and behind it any mix. -/
inductive Separates : List Char → Prop where
  | intro {c : Char} {gap : List Char} (blank : isBlank c = true) (more : Mixed gap) : Separates (c :: gap)

theorem Separates.mixed {gap : List Char} (separates : Separates gap) : Mixed gap := by
  cases separates with
  | intro blank more => exact .blank blank more

theorem Separates.apart {gap : List Char} (separates : Separates gap) (rest : List Char) : Apart (gap ++ rest) := by
  cases separates with
  | intro blank more =>
    rintro c ⟨⟩
    exact blank

end Gap

/-- A token of this kind and with this literal is read from some text. -/
def Rendering.Shape.Produced (s : Shape) : Prop :=
  ∃ source, ∃ t ∈ (Lexer.ofText source).tokenize.1, t.shape = s

/-- The tokens of a list, one after the other, with something between any two of them that
keeps them apart. -/
inductive Rendering.Separated : List Shape → List Char → Prop where
  | nil : Separated [] []
  | single {s : Shape} : Separated [s] s.spelling
  | cons {s s' : Shape} {shapes : List Shape} {gap rest : List Char} (separates : Gap.Separates gap)
      (others : Separated (s' :: shapes) rest) : Separated (s :: s' :: shapes) (s.spelling ++ (gap ++ rest))

namespace Lexeme

/-- Behind a symbol a blank makes no more of it. -/
theorem extensions_solid (s : Symbol) {c : Char} (blank : Gap.isBlank c = true) :
    s.extensions.contains c = false := by
  have solid : s.extensions.all fun d => !Gap.isBlank d := by cases s <;> decide
  rw [Bool.eq_false_iff, ne_eq, List.contains_iff_mem]
  intro member
  have other := List.all_eq_true.mp solid c member
  rw [blank] at other
  cases other

/-- A legal token is written in one way, and it is read from that in front of any blank. -/
theorem Reads.renew {kind : Token.Kind} {literal text rest rest' : List Char}
    (read : Reads kind literal text rest) (legal : kind ≠ .illegal) (apart : Apart rest') :
    Reads kind literal (Shape.mk kind (String.ofList literal)).spelling rest' := by
  have plain (other : kind ≠ .string) : (Shape.mk kind (String.ofList literal)).spelling = literal := by
    rw [Shape.spelling, if_neg other, String.toList_ofList]
  cases read with
  | name some letters free _ =>
    rw [plain (by simp)]
    exact .name some letters free apart.stops.1
  | keyword _ =>
    rw [plain (by simp)]
    exact .keyword apart.stops.1
  | number some all _ =>
    rw [plain (by simp)]
    exact .number some all apart.stops.2
  | string inside =>
    rw [Shape.spelling, if_pos rfl, String.toList_ofList]
    exact .string inside
  | symbol _ =>
    rw [plain (by simp)]
    exact .symbol fun c next => extensions_solid _ (apart c next)
  | bang _ | twoDots _ | stray _ | openString _ | openComment _ => exact absurd rfl legal

end Lexeme

namespace Rendering

/-- Whatever legal token can be read at all is read from its spelling in front of any blank. -/
theorem Shape.Produced.reads {s : Shape} {rest : List Char} (produced : s.Produced)
    (legal : s.kind ≠ .illegal ∧ s.kind ≠ .endOfFile) (apart : Apart rest) :
    Lexeme.Reads s.kind s.literal.toList s.spelling rest := by
  obtain ⟨source, t, member, rfl⟩ := produced
  have early : t ∈ (Tokens.ofText source).list := by
    rcases List.mem_append.mp member with early | last
    · exact early
    · rw [List.mem_singleton.mp last] at legal
      exact absurd (Tokens.scan_final_kind _ _) legal.2
  obtain ⟨_, text, rest', _, _, read⟩ := (Tokens.scan_spell .start source.toList).of_mem early
  have again := read.renew legal.1 apart
  rwa [String.ofList_toList] at again

/-- What is written with separators is made of its tokens, behind any mix. -/
theorem Separated.spell {shapes : List Shape} {cs : List Char} (written : Separated shapes cs)
    (legal : ∀ s ∈ shapes, s.kind ≠ .illegal ∧ s.kind ≠ .endOfFile) (produced : ∀ s ∈ shapes, s.Produced)
    {front : List Char} (mixed : Gap.Mixed front) (l : Location) :
    ∃ ts finish, Tokens.Spell l (front ++ cs) ts finish ∧ ts.map Token.shape = shapes := by
  induction written generalizing front l with
  | nil =>
    rw [List.append_nil]
    exact ⟨[], _, .nil (mixed.fills []), rfl⟩
  | @single s =>
    have apart : Apart [] := by
      intro c first
      cases first
    have read := (produced s (by simp)).reads (legal s (by simp)) apart
    have spelt := Tokens.Spell.cons (t := s.token (l.after front)) (mixed.fills _) rfl read (.nil .nil)
    rw [List.append_nil] at spelt
    exact ⟨_, _, spelt, rfl⟩
  | @cons s s' shapes gap rest separates others ih =>
    have read := (produced s (by simp)).reads (legal s (by simp)) (separates.apart rest)
    obtain ⟨ts, finish, spelt, same⟩ := ih (fun u member => legal u (List.mem_cons_of_mem s member))
      (fun u member => produced u (List.mem_cons_of_mem s member)) separates.mixed
      ((l.after front).after s.spelling)
    refine ⟨s.token (l.after front) :: ts, finish, .cons (mixed.fills _) rfl read spelt, ?_⟩
    rw [List.map_cons, same]
    rfl

end Rendering

/-- Tokens that can be read, none of them illegal, are read back from a text that has them
one after the other with separators between them: their kinds and literals in order, and
then the end. -/
theorem Lexer.tokenize_separated (shapes : List Shape) (text : String)
    (legal : ∀ s ∈ shapes, s.kind ≠ .illegal ∧ s.kind ≠ .endOfFile) (produced : ∀ s ∈ shapes, s.Produced)
    (written : Separated shapes text.toList) :
    (Lexer.ofText text).tokenize.1.map Token.shape = shapes ++ [⟨.endOfFile, ""⟩] := by
  obtain ⟨ts, finish, spelt, same⟩ := written.spell legal produced .nil .start
  have read : Tokens.ofText text = ⟨ts, .atEnd finish⟩ := spelt.scan_eq
  change (Tokens.ofText text).toList.map Token.shape = _
  rw [read, Tokens.toList, List.map_append, same]
  rfl

/-- A string that looks like a comment, comments that hold a quote and a sign, and a slash
between them. -/
theorem Lexer.tokenize_separated_sample :
    (Lexer.ofText "\"/*\" /*\"*/ / //=\n=").tokenize.1.map Token.shape =
      [.text "/*", .symbol .slash, .symbol .assign, ⟨.endOfFile, ""⟩] := by
  have first : Gap.Separates " /*\"*/ ".toList :=
    .intro rfl (@Gap.Mixed.bracketed ['"'] _ (by decide) (.blank rfl .nil))
  have second : Gap.Separates " //=\n".toList := .intro rfl (@Gap.Mixed.line ['='] _ (by decide) .nil)
  have written : Separated [.text "/*", .symbol .slash, .symbol .assign] "\"/*\" /*\"*/ / //=\n=".toList :=
    .cons first (.cons second .single)
  refine tokenize_separated _ _ ?_ ?_ written
  · simp [Shape.text, Shape.symbol]
  · simp only [List.forall_mem_cons]
    exact ⟨⟨"\"/*\"", ⟨.string, "/*", ⟨1, 1⟩⟩, by decide +kernel, rfl⟩,
      ⟨"/", ⟨.symbol .slash, "/", ⟨1, 1⟩⟩, by decide +kernel, rfl⟩,
      ⟨"=", ⟨.symbol .assign, "=", ⟨1, 1⟩⟩, by decide +kernel, rfl⟩, by simp⟩

end ImpToC
