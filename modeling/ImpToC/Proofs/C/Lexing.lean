import Mathlib.Data.List.TakeWhile
import ImpToC.C.Printer
import ImpToC.Proofs.C.Grammar
import ImpToC.Proofs.LiteralValue
import ImpToC.Proofs.Spelling

/-!
Tokens of a C text. Words, numbers and operators are as long as they can be, a
string literal ends at its first quote that no backslash stands before, and a
comment goes to the end of its line. Operators that the grammar does not know,
`++` and `/*` among them, are no tokens, so that they are not taken for two shorter
ones. Below that stands what the lexer makes of each kind of text that is emitted.
-/
namespace ImpToC.C.Grammar

def isBlank (c : Char) : Bool := c == ' ' || c == '\t' || c == '\n'

def startsWord (c : Char) : Bool := c.isAlpha || c == '_'

def continuesWord (c : Char) : Bool := startsWord c || c.isDigit

/-- The body of a literal after its opening quote, and what follows the closing one.
A line cannot end in a literal. -/
def quote? : List Char → Option (List Char × List Char)
  | [] => none
  | '"' :: cs => some ([], cs)
  | '\\' :: c :: cs =>
    if c = '\n' then none else (quote? cs).map fun (body, rest) => ('\\' :: c :: body, rest)
  | c :: cs => if c = '\n' then none else (quote? cs).map fun (body, rest) => (c :: body, rest)

/-- An operator of one character, unless it is the start of a longer one. -/
def single? (c : Char) (next : Option Char) : Option Tok :=
  match c with
  | '(' => some .leftParen
  | ')' => some .rightParen
  | '{' => some .leftBrace
  | '}' => some .rightBrace
  | ',' => some .comma
  | ';' => some .semicolon
  | '=' => if next = some '=' then none else some .assign
  | '+' => if next = some '+' ∨ next = some '=' then none else some (.op .add)
  | '-' => if next = some '-' ∨ next = some '=' ∨ next = some '>' then none else some (.op .sub)
  | '*' => if next = some '=' then none else some (.op .mul)
  | '/' => if next = some '*' ∨ next = some '=' then none else some (.op .div)
  | _ => none

/-- What stands at the front of a text, a token or a gap, and the text after it. -/
def piece? (c : Char) (cs : List Char) : Option (Option Tok × List Char) :=
  if isBlank c then some (none, cs)
  else if startsWord c then
    some (some (.word (String.ofList (c :: cs.takeWhile continuesWord))), cs.dropWhile continuesWord)
  else if c.isDigit then
    match (cs.dropWhile Char.isDigit).head? with
    | some d =>
      if startsWord d then none
      else some (some (.number (c :: cs.takeWhile Char.isDigit)), cs.dropWhile Char.isDigit)
    | none => some (some (.number (c :: cs.takeWhile Char.isDigit)), cs.dropWhile Char.isDigit)
  else if c = '"' then (quote? cs).map fun (body, rest) => (some (.literal body), rest)
  else if c = '/' ∧ cs.head? = some '/' then some (none, cs.dropWhile (· != '\n'))
  else if c = '=' ∧ cs.head? = some '=' then some (some (.op .eq), cs.tail)
  else if c = '!' ∧ cs.head? = some '=' then some (some (.op .ne), cs.tail)
  else (single? c cs.head?).map fun t => (some t, cs)

theorem quote?_length_le {cs body rest : List Char} (found : quote? cs = some (body, rest)) :
    rest.length ≤ cs.length := by
  fun_induction quote? cs generalizing body with
  | case1 => cases found
  | case2 cs =>
    cases found
    exact Nat.le_succ _
  | case3 => cases found
  | case4 c cs _ ih =>
    obtain ⟨⟨inner, after⟩, inside, same⟩ := Option.map_eq_some_iff.mp found
    cases same
    have := ih inside
    simp only [List.length_cons]
    omega
  | case5 => cases found
  | case6 c cs _ _ _ ih =>
    obtain ⟨⟨inner, after⟩, inside, same⟩ := Option.map_eq_some_iff.mp found
    cases same
    have := ih inside
    simp only [List.length_cons]
    omega

/-- A piece never leaves more than it was given, so reading pieces comes to an end. -/
theorem piece?_length_le {c : Char} {cs rest : List Char} {t : Option Tok}
    (found : piece? c cs = some (t, rest)) : rest.length ≤ cs.length := by
  have dropped : ∀ p : Char → Bool, (cs.dropWhile p).length ≤ cs.length :=
    fun p => (List.dropWhile_suffix p).length_le
  unfold piece? at found
  split at found
  · cases found
    exact Nat.le_refl _
  split at found
  · cases found
    exact dropped _
  split at found
  · split at found
    · split at found
      · cases found
      · cases found
        exact dropped _
    · cases found
      exact dropped _
  split at found
  · obtain ⟨⟨body, after⟩, inside, same⟩ := Option.map_eq_some_iff.mp found
    cases same
    exact quote?_length_le inside
  split at found
  · cases found
    exact dropped _
  split at found
  · cases found
    simp
  split at found
  · cases found
    simp
  · obtain ⟨_, _, same⟩ := Option.map_eq_some_iff.mp found
    cases same
    exact Nat.le_refl _

/-- All tokens of a text, if it has no other characters. -/
def lex (cs : List Char) : Option (List Tok) :=
  match cs with
  | [] => some []
  | c :: cs =>
    match found : piece? c cs with
    | none => none
    | some (t, rest) =>
      have := piece?_length_le found
      (lex rest).map (t.toList ++ ·)
termination_by cs.length

theorem lex_cons (c : Char) (cs : List Char) :
    lex (c :: cs) = (piece? c cs).bind fun (t, rest) => (lex rest).map (t.toList ++ ·) := by
  rw [lex]
  split
  · next missing => rw [missing]; rfl
  · next t rest found => simp only [found, Option.bind_some]

theorem lex_gap {c : Char} {cs rest : List Char} (found : piece? c cs = some (none, rest)) :
    lex (c :: cs) = lex rest := by
  rw [lex_cons, found]
  simp

theorem lex_token {c : Char} {cs rest : List Char} {t : Tok} (found : piece? c cs = some (some t, rest)) :
    lex (c :: cs) = (lex rest).map (t :: ·) := by
  rw [lex_cons, found]
  rfl

/-- The text does not go on with a word or a number. -/
def Ends (cs : List Char) : Prop := ∀ c, cs.head? = some c → continuesWord c = false

theorem ends_cons {c : Char} {cs : List Char} (other : continuesWord c = false) : Ends (c :: cs) := by
  intro d same
  cases same
  exact other

/-- What C takes for a word: no digit at its front. -/
def IsIdent (name : String) : Prop :=
  ∃ c cs, name.toList = c :: cs ∧ startsWord c = true ∧ ∀ d ∈ cs, continuesWord d = true

/-- The words that emitted text has besides the names of a program. -/
def fixedWords : List String :=
  ["int", "char", "if", "else", "return", "main", "printf", "strcmp", "concat_strings"]

theorem isIdent_fixed (word : String) (fixed : word ∈ fixedWords) : IsIdent word := by
  have shape : ∀ word ∈ fixedWords, ∃ c, word.toList.head? = some c ∧ startsWord c = true ∧
      word.toList.tail.all continuesWord = true := by
    simp only [fixedWords, List.forall_mem_cons]
    exact ⟨⟨'i', rfl, rfl, rfl⟩, ⟨'c', rfl, rfl, rfl⟩, ⟨'i', rfl, rfl, rfl⟩, ⟨'e', rfl, rfl, rfl⟩,
      ⟨'r', rfl, rfl, rfl⟩, ⟨'m', rfl, rfl, rfl⟩, ⟨'p', rfl, rfl, rfl⟩, ⟨'s', rfl, rfl, rfl⟩,
      ⟨'c', rfl, rfl, rfl⟩, nofun⟩
  obtain ⟨c, first, starts, continues⟩ := shape word fixed
  obtain ⟨cs, shown⟩ := List.head?_eq_some_iff.mp first
  rw [shown] at continues
  exact ⟨c, cs, shown, starts, List.all_eq_true.mp continues⟩

theorem not_isBlank_of_startsWord {c : Char} (letter : startsWord c = true) : isBlank c = false := by
  have different : ∀ d, startsWord d = false → c ≠ d := by
    rintro d other rfl
    rw [letter] at other
    cases other
  simp [isBlank, different ' ' (by decide), different '\t' (by decide), different '\n' (by decide)]

/-- A word is read whole if what follows does not continue it. -/
theorem lex_word {name : String} (ident : IsIdent name) {rest : List Char} (ends : Ends rest) :
    lex (name.toList ++ rest) = (lex rest).map (.word name :: ·) := by
  obtain ⟨c, cs, spelled, letter, letters⟩ := ident
  obtain ⟨taken, dropped⟩ := takeWhile_append_stop letters ends
  have same : String.ofList (c :: cs) = name := by rw [← spelled, String.ofList_toList]
  rw [spelled, List.cons_append]
  refine lex_token ?_
  rw [piece?, if_neg (by simp [not_isBlank_of_startsWord letter]), if_pos letter, taken, dropped, same]

theorem startsWord_iff (c : Char) : startsWord c = true ↔
    (65 ≤ c.toNat ∧ c.toNat ≤ 90) ∨ (97 ≤ c.toNat ∧ c.toNat ≤ 122) ∨ c.toNat = 95 := by
  have under : c = '_' ↔ c.toNat = 95 :=
    ⟨fun same => by rw [same]; rfl, fun same => Char.toNat_inj.mp same⟩
  change (decide (65 ≤ c.val ∧ c.val ≤ 90) || (97 ≤ c.val && c.val ≤ 122) || c == '_') = true ↔ _
  simp only [Bool.or_eq_true, Bool.and_eq_true, decide_eq_true_eq, UInt32.le_iff_toNat_le, beq_iff_eq,
    under, or_assoc]
  rfl

theorem isDigit_cases {c : Char} (digit : c.isDigit = true) :
    isBlank c = false ∧ startsWord c = false := by
  have range := (Lexeme.isDigit_iff c).mp digit
  have different : ∀ d : Char, (d.toNat < 48 ∨ 57 < d.toNat) → c ≠ d := by
    rintro d outside rfl
    omega
  refine ⟨?_, ?_⟩
  · simp [isBlank, different ' ' (by decide), different '\t' (by decide), different '\n' (by decide)]
  · rw [Bool.eq_false_iff, ne_eq, startsWord_iff]
    omega

/-- So is a number, which a letter right behind it would spoil. -/
theorem lex_number {c : Char} {cs rest : List Char} (digits : ∀ d ∈ c :: cs, d.isDigit = true)
    (ends : Ends rest) : lex (c :: cs ++ rest) = (lex rest).map (.number (c :: cs) :: ·) := by
  have first := digits c (by simp)
  obtain ⟨solid, noLetter⟩ := isDigit_cases first
  have stops : ∀ d, rest.head? = some d → d.isDigit = false := by
    intro d next
    have other := ends d next
    rw [continuesWord, Bool.or_eq_false_iff] at other
    exact other.2
  have others : ∀ d ∈ cs, d.isDigit = true := fun d member => digits d (by simp [member])
  obtain ⟨taken, dropped⟩ := takeWhile_append_stop others stops
  rw [List.cons_append]
  refine lex_token ?_
  rw [piece?, if_neg (by simp [solid]), if_neg (by simp [noLetter]), if_pos first, taken, dropped]
  split
  · next d next =>
    have other := ends d next
    rw [continuesWord, Bool.or_eq_false_iff] at other
    rw [if_neg (by simp [other.1])]
  · rfl

/-- A body that is read as it stands, up to whatever follows it. -/
def Closed (body : List Char) : Prop :=
  ∀ rest, quote? (body ++ rest) = (quote? rest).map fun (more, after) => (body ++ more, after)

/-- A literal ends at its own last quote, whatever follows. -/
theorem lex_literal {body : List Char} (closed : Closed body) (rest : List Char) :
    lex ('"' :: (body ++ '"' :: rest)) = (lex rest).map (.literal body :: ·) := by
  refine lex_token ?_
  have ended : quote? (body ++ '"' :: rest) = some (body, rest) := by
    rw [closed, quote?]
    simp
  rw [piece?, if_neg (by decide), if_neg (by decide), if_neg (by decide), if_pos rfl, ended]
  rfl

/-- A comment ends with its line and leaves no token. -/
theorem lex_comment {text : List Char} (oneLine : '\n' ∉ text) (rest : List Char) :
    lex ('/' :: '/' :: (text ++ '\n' :: rest)) = lex rest := by
  have all : ∀ c ∈ text, (c != '\n') = true := by
    intro c member
    exact bne_iff_ne.mpr fun same => oneLine (same ▸ member)
  have stops : ∀ c, ('\n' :: rest).head? = some c → (c != '\n') = false := by
    intro c next
    cases next
    rfl
  have skipped : ('/' :: (text ++ '\n' :: rest)).dropWhile (· != '\n') = '\n' :: rest := by
    rw [List.dropWhile_cons, if_pos (by decide), (takeWhile_append_stop all stops).2]
  have gap : piece? '/' ('/' :: (text ++ '\n' :: rest)) = some (none, '\n' :: rest) := by
    rw [piece?, if_neg (by decide), if_neg (by decide), if_neg (by decide), if_neg (by decide),
      if_pos ⟨rfl, rfl⟩, skipped]
  rw [lex_gap gap]
  exact lex_gap rfl

section symbols

variable (cs : List Char)

@[simp] theorem lex_space : lex (' ' :: cs) = lex cs := lex_gap rfl
@[simp] theorem lex_newline : lex ('\n' :: cs) = lex cs := lex_gap rfl
@[simp] theorem lex_leftParen : lex ('(' :: cs) = (lex cs).map (.leftParen :: ·) := lex_token rfl
@[simp] theorem lex_rightParen : lex (')' :: cs) = (lex cs).map (.rightParen :: ·) := lex_token rfl
@[simp] theorem lex_leftBrace : lex ('{' :: cs) = (lex cs).map (.leftBrace :: ·) := lex_token rfl
@[simp] theorem lex_rightBrace : lex ('}' :: cs) = (lex cs).map (.rightBrace :: ·) := lex_token rfl
@[simp] theorem lex_comma : lex (',' :: cs) = (lex cs).map (.comma :: ·) := lex_token rfl
@[simp] theorem lex_semicolon : lex (';' :: cs) = (lex cs).map (.semicolon :: ·) := lex_token rfl
@[simp] theorem lex_assign : lex ('=' :: ' ' :: cs) = (lex cs).map (.assign :: ·) := by
  rw [lex_token (t := .assign) rfl, lex_space]
@[simp] theorem lex_star : lex ('*' :: ' ' :: cs) = (lex cs).map (.op .mul :: ·) := by
  rw [lex_token (t := .op .mul) rfl, lex_space]

/-- Operators are written with a blank behind them, so that no longer symbol starts there. -/
theorem lex_operator (op : Operator) :
    lex (op.symbol.toList ++ ' ' :: cs) = (lex cs).map (.op op :: ·) := by
  cases op with
  | add =>
    change lex ('+' :: ' ' :: cs) = _
    rw [lex_token (t := .op .add) rfl, lex_space]
  | sub =>
    change lex ('-' :: ' ' :: cs) = _
    rw [lex_token (t := .op .sub) rfl, lex_space]
  | mul => exact lex_star cs
  | div =>
    change lex ('/' :: ' ' :: cs) = _
    rw [lex_token (t := .op .div) rfl, lex_space]
  | eq =>
    change lex ('=' :: '=' :: ' ' :: cs) = _
    rw [lex_token (t := .op .eq) rfl, List.tail_cons, lex_space]
  | ne =>
    change lex ('!' :: '=' :: ' ' :: cs) = _
    rw [lex_token (t := .op .ne) rfl, List.tail_cons, lex_space]

end symbols

end ImpToC.C.Grammar
