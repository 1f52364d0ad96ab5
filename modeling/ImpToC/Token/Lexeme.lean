import ImpToC.Token.Gap

/-!
One token's worth of text, read from the front of a text that starts with no
gap. Words, digit runs and the two- and three-character symbols are as long as
they can be; a string ends at the next quote and has no escapes.
-/
namespace ImpToC

/-- A token before it has a place: `text` is all of its characters and
`literal` the ones the token keeps. -/
structure Lexeme where
  kind : Token.Kind
  literal : List Char
  text : List Char
  deriving DecidableEq, Repr

namespace Lexeme

def isDigit (c : Char) : Bool := '0' ≤ c && c ≤ '9'

/-- Letters are those of ASCII; digits are no part of a word. -/
def isWordChar (c : Char) : Bool :=
  'a' ≤ c && c ≤ 'z' || 'A' ≤ c && c ≤ 'Z' || c == '_'

/-- The symbol that is this one character. -/
def symbol? : Char → Option Symbol
  | '=' => some .assign
  | '+' => some .plus
  | '-' => some .minus
  | '*' => some .asterisk
  | '/' => some .slash
  | ',' => some .comma
  | ';' => some .semicolon
  | ':' => some .colon
  | '.' => some .dot
  | '(' => some .leftParen
  | ')' => some .rightParen
  | '{' => some .leftBrace
  | '}' => some .rightBrace
  | _ => none

/-- A lexeme whose token keeps all of its text. -/
def whole (kind : Token.Kind) (text : List Char) : Lexeme := ⟨kind, text, text⟩

def ofSymbol (s : Symbol) : Lexeme := whole (.symbol s) s.spelling.toList

def illegal (text : List Char) : Lexeme := whole .illegal text

def ofWord (word : List Char) : Lexeme :=
  match Keyword.ofWord? (String.ofList word) with
  | some k => whole (.keyword k) word
  | none => whole .ident word

/-- After an opening quote. Without a closing one the rest of the text is illegal. -/
def quoted (cs : List Char) : Lexeme × List Char :=
  let body := cs.takeWhile (· != '"')
  match cs.dropWhile (· != '"') with
  | [] => (illegal ('"' :: body), [])
  | quote :: rest => (⟨.string, body, '"' :: (body ++ [quote])⟩, rest)

/-- After a dot: one dot and three dots are symbols, two are illegal. -/
def dots (cs : List Char) : Lexeme × List Char :=
  match cs with
  | '.' :: '.' :: rest => (ofSymbol .ellipsis, rest)
  | '.' :: rest => (illegal ['.', '.'], rest)
  | rest => (ofSymbol .dot, rest)

/-- After a slash. Gaps being skipped, a star here opens a comment that never
ends: it is illegal, and the token shows only its two opening characters. -/
def slash (cs : List Char) : Lexeme × List Char :=
  match cs with
  | '*' :: rest => (⟨.illegal, ['/', '*'], '/' :: '*' :: rest⟩, [])
  | rest => (ofSymbol .slash, rest)

/-- The longer symbol if an equals sign follows, else `short`. -/
def orEqual (short : Lexeme) (long : Symbol) (cs : List Char) : Lexeme × List Char :=
  match cs with
  | '=' :: rest => (ofSymbol long, rest)
  | rest => (short, rest)

/-- The lexeme at the front of a text and what follows it; none at the end. -/
def read? : List Char → Option (Lexeme × List Char)
  | [] => none
  | c :: cs =>
    if c = '"' then some (quoted cs)
    else if c = '.' then some (dots cs)
    else if c = '/' then some (slash cs)
    else if c = '=' then some (orEqual (ofSymbol .assign) .equal cs)
    else if c = '!' then some (orEqual (illegal ['!']) .notEqual cs)
    else if isDigit c then
      some (whole .int (c :: cs.takeWhile isDigit), cs.dropWhile isDigit)
    else if isWordChar c then
      some (ofWord (c :: cs.takeWhile isWordChar), cs.dropWhile isWordChar)
    else
      match symbol? c with
      | some s => some (ofSymbol s, cs)
      | none => some (illegal [c], cs)

@[simp] theorem whole_text (kind : Token.Kind) (text : List Char) : (whole kind text).text = text := rfl

@[simp] theorem ofWord_text (word : List Char) : (ofWord word).text = word := by
  unfold ofWord
  split <;> rfl

theorem quoted_eq_append (cs : List Char) :
    '"' :: cs = (quoted cs).1.text ++ (quoted cs).2 := by
  have split := List.takeWhile_append_dropWhile (p := (· != '"')) (l := cs)
  unfold quoted
  cases tail : cs.dropWhile (· != '"') with
  | nil => rw [tail] at split; simpa [illegal] using split.symm
  | cons quote rest => rw [tail] at split; simpa using split.symm

theorem dots_eq_append (cs : List Char) : '.' :: cs = (dots cs).1.text ++ (dots cs).2 := by
  unfold dots
  split <;> rfl

theorem slash_eq_append (cs : List Char) : '/' :: cs = (slash cs).1.text ++ (slash cs).2 := by
  unfold slash
  split
  · simp
  · rfl

theorem orEqual_eq_append (c : Char) (short : Lexeme) (long : Symbol) (cs : List Char)
    (single : short.text = [c]) (double : long.spelling.toList = [c, '=']) :
    c :: cs = (orEqual short long cs).1.text ++ (orEqual short long cs).2 := by
  unfold orEqual
  split
  · simp [ofSymbol, double]
  · simp [single]

theorem symbol?_spelling (c : Char) (s : Symbol) (found : symbol? c = some s) :
    s.spelling.toList = [c] := by
  unfold symbol? at found
  split at found <;> first | (cases found; rfl) | cases found

/-- Nothing of the text is lost: the lexeme's characters come first, then the rest. -/
theorem read?_eq_append (cs : List Char) (x : Lexeme) (rest : List Char)
    (found : read? cs = some (x, rest)) : cs = x.text ++ rest := by
  cases cs with
  | nil => simp [read?] at found
  | cons c cs =>
    simp only [read?] at found
    split at found
    · next quote => subst quote; simpa [Option.some.inj found] using quoted_eq_append cs
    split at found
    · next dot => subst dot; simpa [Option.some.inj found] using dots_eq_append cs
    split at found
    · next stroke => subst stroke; simpa [Option.some.inj found] using slash_eq_append cs
    split at found
    · next equals =>
      subst equals
      simpa [Option.some.inj found] using orEqual_eq_append '=' (ofSymbol .assign) .equal cs rfl rfl
    split at found
    · next bang =>
      subst bang
      simpa [Option.some.inj found] using orEqual_eq_append '!' (illegal ['!']) .notEqual cs rfl rfl
    split at found
    · cases found; simp
    split at found
    · cases found; simp
    split at found
    · next s symbol => cases found; simp [ofSymbol, symbol?_spelling c s symbol]
    · cases found; simp [illegal]

theorem ofSymbol_text_ne_nil (s : Symbol) : (ofSymbol s).text ≠ [] := by
  cases s <;> decide

/-- Every lexeme has a character of its own. -/
theorem read?_text_ne_nil (cs : List Char) (x : Lexeme) (rest : List Char)
    (found : read? cs = some (x, rest)) : x.text ≠ [] := by
  cases cs with
  | nil => simp [read?] at found
  | cons c cs =>
    simp only [read?, quoted, dots, slash, orEqual] at found
    repeat' split at found
    all_goals cases found
    all_goals first | exact ofSymbol_text_ne_nil _ | simp [illegal]

theorem read?_length_lt {cs : List Char} {x : Lexeme} {rest : List Char}
    (found : read? cs = some (x, rest)) : rest.length < cs.length := by
  have solid := List.length_pos_iff.mpr (read?_text_ne_nil _ _ _ found)
  simp only [read?_eq_append _ _ _ found, List.length_append]
  omega

end Lexeme

end ImpToC
