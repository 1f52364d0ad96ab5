import ImpToC.Proofs.C.Reading

/-!
The literal that is written for a text without quotes. C finds its end at its last
character, all of it stands on one line, and C knows each of its escapes. What C reads from
it is the value of the text: neither does a backslash of the text take in a character that
it should not, nor does one get lost. Strings that were read from a source hold no quotes,
so this covers all of them.
-/
namespace ImpToC.C.Literal

/-- The characters that C names a single character by, behind a backslash. -/
def escapeNames : List Char := ['n', 't', 'r', '\\', '\'', '"', '?', 'a', 'b', 'f', 'v']

/-- The escape sequences of a body from left to right. A backslash takes the next character
with it; behind the last one there may be none. -/
def escapes : List Char → List (List Char)
  | [] => []
  | '\\' :: c :: cs => ['\\', c] :: escapes cs
  | c :: cs => if c = '\\' then [c] :: escapes cs else escapes cs

/-- The character can stand in a literal as it is. -/
def StandsInLine (c : Char) : Prop := c ≠ '\n' ∧ c ≠ '\r' ∧ c ≠ '\t'

/-- The shape of a body: known escapes, and between them characters that are no backslash. -/
inductive IsBody : List Char → Prop where
  | nil : IsBody []
  | escape {c : Char} {rest : List Char} (named : c ∈ escapeNames) (more : IsBody rest) :
      IsBody ('\\' :: c :: rest)
  | plain {c : Char} {rest : List Char} (plain : c ≠ '\\') (inLine : StandsInLine c) (more : IsBody rest) :
      IsBody (c :: rest)

theorem isEscape_iff (c : Char) : isEscape c = true ↔ c ∈ escapeNames := by
  simp [isEscape, escapeNames]

theorem IsBody.encodeChar (c : Char) {rest : List Char} (more : IsBody rest) :
    IsBody (encodeChar c ++ rest) := by
  unfold Literal.encodeChar
  split
  · exact .escape (by decide) more
  split
  · exact .escape (by decide) more
  split
  · exact .escape (by decide) more
  split
  · exact .escape (by decide) more
  · next noBack noFeed noReturn noTab => exact .plain noBack ⟨noFeed, noReturn, noTab⟩ more

theorem encode_isBody (text : List Char) : IsBody (encode text) := by
  fun_induction encode text with
  | case1 => exact .nil
  | case2 c cs escape ih => exact .escape ((isEscape_iff c).mp escape) ih
  | case3 c cs unknown ih => exact .escape (by decide) ih
  | case4 c cs single ih => exact ih.encodeChar c

theorem standsInLine_of_escapeNames {c : Char} (named : c ∈ escapeNames) : StandsInLine c := by
  have other : ∀ d, d ∉ escapeNames → c ≠ d := fun d absent same => absent (same ▸ named)
  exact ⟨other '\n' (by decide), other '\r' (by decide), other '\t' (by decide)⟩

/-- A body has no line feed, carriage return or tab of its own. -/
theorem IsBody.inLine {b : List Char} (shaped : IsBody b) : ∀ c ∈ b, StandsInLine c := by
  induction shaped with
  | nil =>
    intro c member
    cases member
  | @escape c rest named more ih =>
    have back : StandsInLine '\\' := standsInLine_of_escapeNames (by decide)
    have name : StandsInLine c := standsInLine_of_escapeNames named
    exact List.forall_mem_cons.mpr ⟨back, List.forall_mem_cons.mpr ⟨name, ih⟩⟩
  | plain _ inLine _ ih => exact List.forall_mem_cons.mpr ⟨inLine, ih⟩

/-- Read from left to right, a body has no escapes but the ones that C knows. -/
theorem IsBody.known {b : List Char} (shaped : IsBody b) :
    ∀ sequence ∈ escapes b, ∃ c ∈ escapeNames, sequence = ['\\', c] := by
  induction shaped with
  | nil =>
    intro sequence member
    cases member
  | @escape c rest named more ih =>
    rw [escapes]
    exact List.forall_mem_cons.mpr ⟨⟨c, named, rfl⟩, ih⟩
  | @plain c rest plain _ _ ih =>
    have skipped : escapes (c :: rest) = escapes rest := by
      rw [escapes, if_neg plain]
      intro _ _ back
      exact absurd back plain
    rw [skipped]
    exact ih

/-- Behind the opening quote of a literal, the first quote that ends it is its last
character. -/
theorem quote?_encode (text : List Char) (noQuote : '"' ∉ text) :
    Grammar.quote? (encode text ++ ['"']) = some (encode text, []) := by
  have closed := Grammar.closed_encode text fun c member same => noQuote (same ▸ member)
  rw [closed ['"'], Grammar.quote?]
  simp

theorem render_str (b : String) : (Expr.str b).render.toList = '"' :: (b.toList ++ ['"']) := by
  change ("\"" ++ b ++ "\"").toList = _
  simp

theorem string_noQuote {source : String} {t : Token} (member : t ∈ (Tokens.ofText source).list)
    (string : t.kind = .string) : '"' ∉ t.literal.toList :=
  (Tokens.scan_spelled .start source.toList t member).text string

/-- The literal for a text without quotes ends at its last character and no earlier, has no
line feeds, carriage returns or tabs and no escapes but the known ones, and decodes to the
value of the text. The text of a string that was read has no quotes. -/
theorem literal_closes_and_decodes :
    (∀ text : String, '"' ∉ text.toList →
      (∃ rest, (Expr.str (body text)).render.toList = '"' :: rest ∧
        Grammar.quote? rest = some ((body text).toList, [])) ∧
      (∀ c ∈ (body text).toList, c ≠ '\n' ∧ c ≠ '\r' ∧ c ≠ '\t') ∧
      (∀ sequence ∈ escapes (body text).toList, ∃ c ∈ escapeNames, sequence = ['\\', c]) ∧
      decode? (body text).toList = some (value text.toList)) ∧
    ∀ source, ∀ t ∈ (Tokens.ofText source).list, t.kind = .string → '"' ∉ t.literal.toList := by
  refine ⟨fun text noQuote => ?_, fun source t member string => string_noQuote member string⟩
  have written : (body text).toList = encode text.toList := String.toList_ofList
  refine ⟨⟨(body text).toList ++ ['"'], ?_, ?_⟩, ?_, ?_, ?_⟩
  · exact render_str (body text)
  · rw [written]
    exact quote?_encode text.toList noQuote
  · rw [written]
    exact (encode_isBody text.toList).inLine
  · rw [written]
    exact (encode_isBody text.toList).known
  · exact decode?_body noQuote

/-- A known escape, a backslash that is none, one in front of a line feed, and one at the end. -/
theorem literal_closes_and_decodes_sample :
    ∃ text, text = "\\n\\q\\\n\\" ∧ '"' ∉ text.toList ∧ (body text).toList = "\\n\\\\q\\\\\\n\\\\".toList ∧
      Grammar.quote? ((body text).toList ++ ['"']) = some ((body text).toList, []) ∧
      decode? (body text).toList = some ['\n', '\\', 'q', '\\', '\n', '\\'] := by
  refine ⟨_, rfl, by decide, by decide, ?_, ?_⟩
  · obtain ⟨⟨rest, shown, found⟩, _⟩ := literal_closes_and_decodes.1 "\\n\\q\\\n\\" (by decide)
    rw [render_str] at shown
    rw [(List.cons.inj shown).2]
    exact found
  · exact (literal_closes_and_decodes.1 "\\n\\q\\\n\\" (by decide)).2.2.2

end ImpToC.C.Literal
