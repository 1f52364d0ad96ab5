import ImpToC.C.Literal

/-!
What string literals stand for. In the language a backslash in front of the name
of a one-character escape stands with it for one character, and all else stands
for itself. C reads the body of a literal by its own rules, under which a quote, a
line feed or an unknown escape has no place in it. The body written for a text
decodes to what the text stands for, whatever body is joined behind it.
-/
namespace ImpToC.C.Literal

/-- The character that a one-character escape names. -/
def escaped? : Char → Option Char
  | 'n' => some '\n'
  | 't' => some '\t'
  | 'r' => some '\r'
  | '\\' => some '\\'
  | '\'' => some '\''
  | '"' => some '"'
  | '?' => some '?'
  | 'a' => some '\x07'
  | 'b' => some '\x08'
  | 'f' => some '\x0c'
  | 'v' => some '\x0b'
  | _ => none

/-- What the text of a string stands for. -/
def value : List Char → List Char
  | [] => []
  | '\\' :: c :: cs =>
    match escaped? c with
    | some x => x :: value cs
    | none => '\\' :: value (c :: cs)
  | c :: cs => c :: value cs

/-- What C makes of the body of a literal, if it is one. -/
def decode? : List Char → Option (List Char)
  | [] => some []
  | '\\' :: c :: cs =>
    match escaped? c, decode? cs with
    | some x, some xs => some (x :: xs)
    | _, _ => none
  | c :: cs => if c = '\\' ∨ c = '"' ∨ c = '\n' then none else (decode? cs).map (c :: ·)

theorem isEscape_eq_isSome (c : Char) : isEscape c = (escaped? c).isSome := by
  unfold escaped?
  split
  all_goals first | rfl | skip
  simp_all [isEscape]

theorem decode?_escape (c : Char) (cs : List Char) :
    decode? ('\\' :: c :: cs) = (escaped? c).bind fun x => (decode? cs).map (x :: ·) := by
  rw [decode?]
  cases escaped? c <;> cases decode? cs <;> rfl

theorem decode?_plain {c : Char} {cs : List Char} (plain : c ≠ '\\' ∧ c ≠ '"' ∧ c ≠ '\n') :
    decode? (c :: cs) = (decode? cs).map (c :: ·) := by
  rw [decode?]
  · simp [plain]
  · rintro _ _ rfl
    exact absurd rfl plain.1

theorem decode?_encodeChar {c : Char} (cs : List Char) (noQuote : c ≠ '"') :
    decode? (encodeChar c ++ cs) = (decode? cs).map (c :: ·) := by
  unfold encodeChar
  split
  · next back => subst back; exact decode?_escape _ _
  split
  · next feed => subst feed; exact decode?_escape _ _
  split
  · next ret => subst ret; exact decode?_escape _ _
  split
  · next tab => subst tab; exact decode?_escape _ _
  · exact decode?_plain ⟨‹_›, noQuote, ‹_›⟩

/-- The body of a text decodes to its value, and leaves the rest of a longer body
to be decoded as if it stood alone. -/
theorem decode?_encode_append (text rest : List Char) (noQuote : ∀ c ∈ text, c ≠ '"') :
    decode? (encode text ++ rest) = (decode? rest).map (value text ++ ·) := by
  fun_induction encode text with
  | case1 => simp [value]
  | case2 c cs escape ih =>
    rw [isEscape_eq_isSome, Option.isSome_iff_exists] at escape
    obtain ⟨x, named⟩ := escape
    rw [List.cons_append, List.cons_append, decode?_escape, named,
      ih fun d member => noQuote d (by simp [member]), value, named]
    simp [Function.comp_def]
  | case3 c cs unknown ih =>
    rw [isEscape_eq_isSome, Bool.not_eq_true, Option.isSome_eq_false_iff, Option.isNone_iff_eq_none]
      at unknown
    rw [List.cons_append, List.cons_append, decode?_escape,
      ih fun d member => noQuote d (List.mem_cons_of_mem _ member), value, unknown]
    simp [escaped?, Function.comp_def]
  | case4 c cs single ih =>
    rw [List.append_assoc, decode?_encodeChar _ (noQuote c (by simp)),
      ih fun d member => noQuote d (by simp [member]), value]
    · simp [Function.comp_def]
    · exact single

theorem decode?_encode (text : List Char) (noQuote : ∀ c ∈ text, c ≠ '"') :
    decode? (encode text) = some (value text) := by
  simpa [decode?] using decode?_encode_append text [] noQuote

theorem decode?_body {text : String} (noQuote : '"' ∉ text.toList) :
    decode? (body text).toList = some (value text.toList) := by
  rw [body, String.toList_ofList]
  exact decode?_encode text.toList fun c member same => noQuote (same ▸ member)

/-- No escape stands for the character that ends a string in C. -/
theorem nul_notMem_value {text : List Char} (noNul : '\x00' ∉ text) : '\x00' ∉ value text := by
  fun_induction value text with
  | case1 => simp
  | case2 c cs x named ih =>
    have other : '\x00' ≠ x := by
      rintro rfl
      unfold escaped? at named
      split at named <;> simp at named
    simp_all
  | case3 c cs unknown ih => simp_all
  | case4 c cs single ih => simp_all

end ImpToC.C.Literal
