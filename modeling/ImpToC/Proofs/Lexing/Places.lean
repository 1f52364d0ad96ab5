import ImpToC.Command
import ImpToC.Proofs.Grammar.Soundness
import ImpToC.Proofs.Lexing.Lossless
import ImpToC.Proofs.Locality.Layout

/-!
Errors point at the text. A diagnostic has the place of a token, or of the end of the
text. A fault of a program that can be read has the place of a token in front of the end,
because every place in a program is that of a token it was read from. The lines that are
shown are split off by other rules than the ones that places are counted by: they lose a
carriage return in front of the line feed. The first character of a token is never one of
these, so it is still found under its column.
-/
namespace ImpToC

namespace Text

/-- A character in a text whose first line begins at `l`: how many lines down it is, and
how far from the start of its line. -/
theorem splitLines_append {c : Char} (inside : c ≠ '\n') (before after : List Char) (l : Location) :
    ∃ row column chars, (splitLines (before ++ c :: after))[row]? = some chars ∧ chars[column]? = some c ∧
      (l.after before).line = l.line + row ∧
      (l.after before).column = (if row = 0 then l.column else 1) + column := by
  induction before generalizing l with
  | nil =>
    refine ⟨0, 0, ?_⟩
    rw [List.nil_append, splitLines, if_neg inside]
    cases splitLines after with
    | nil => exact ⟨[c], rfl, rfl, rfl, rfl⟩
    | cons chars rest => exact ⟨c :: chars, rfl, rfl, rfl, rfl⟩
  | cons d before ih =>
    obtain ⟨row, column, chars, found, char, down, across⟩ := ih (l.next d)
    rw [List.cons_append, splitLines, Location.after_cons, down, across]
    by_cases feed : d = '\n'
    · refine ⟨row + 1, column, chars, ?_, char, ?_, ?_⟩
      · rw [if_pos feed, List.getElem?_cons_succ, found]
      · simp only [Location.next, if_pos feed]
        omega
      · simp [Location.next, feed]
    · rw [if_neg feed]
      simp only [Location.next, if_neg feed]
      cases row with
      | zero =>
        refine ⟨0, column + 1, d :: chars, ?_, ?_, rfl, ?_⟩
        · cases parts : splitLines (before ++ c :: after) with
          | nil => simp [parts] at found
          | cons first rest => simpa [parts] using found
        · rw [List.getElem?_cons_succ, char]
        · simp only [if_true]
          omega
      | succ row =>
        refine ⟨row + 1, column, chars, ?_, char, rfl, rfl⟩
        cases parts : splitLines (before ++ c :: after) with
        | nil => simp [parts] at found
        | cons first rest => simpa [parts] using found

/-- A carriage return at the end is taken off, and no other character. -/
theorem dropReturn_getElem? {chars : List Char} {column : Nat} {c : Char} (char : chars[column]? = some c)
    (other : c ≠ '\r') : (dropReturn chars)[column]? = some c := by
  unfold dropReturn
  split
  · next last =>
    obtain ⟨small, _⟩ := List.getElem?_eq_some_iff.mp char
    have shorter : column < chars.length - 1 := by
      by_contra beyond
      have same : column = chars.length - 1 := by omega
      rw [List.getLast?_eq_getElem?, ← same, char] at last
      exact other (Option.some.inj last)
    rw [List.getElem?_dropLast, if_pos shorter, char]
  · exact char

/-- A character that is no carriage return is found in the same row and column of the
lines that are shown. -/
theorem lines_getElem? {text : String} {row column : Nat} {chars : List Char} {c : Char}
    (found : (splitLines text.toList)[row]? = some chars) (char : chars[column]? = some c)
    (other : c ≠ '\r') : ∃ shown, (lines text)[row]? = some shown ∧ shown.toList[column]? = some c := by
  obtain ⟨small, _⟩ := List.getElem?_eq_some_iff.mp found
  unfold lines
  dsimp only
  by_cases inner : row < (splitLines text.toList).length - 1
  · refine ⟨String.ofList (dropReturn chars), ?_, ?_⟩
    · rw [List.getElem?_map, List.getElem?_append_left (by simpa using inner), List.getElem?_map,
        List.getElem?_dropLast, if_pos inner, found]
      rfl
    · rw [String.toList_ofList]
      exact dropReturn_getElem? char other
  · -- The last part is a line, since there is a character in it.
    have last : (splitLines text.toList).getLast? = some chars := by
      have same : row = (splitLines text.toList).length - 1 := by omega
      rw [List.getLast?_eq_getElem?, ← same, found]
    refine ⟨String.ofList chars, ?_, by rwa [String.toList_ofList]⟩
    have count : ((splitLines text.toList).dropLast.map dropReturn).length = row := by
      rw [List.length_map, List.length_dropLast]
      omega
    cases chars with
    | nil => simp at char
    | cons d chars =>
      rw [last, List.getElem?_map, ← count, List.getElem?_append_right (Nat.le_refl _)]
      simp

end Text

namespace Lexeme

/-- A token begins with a character of its own, and gaps begin with blanks. -/
theorem Reads.head {kind : Token.Kind} {literal text rest : List Char} (read : Reads kind literal text rest) :
    ∃ c cs, text = c :: cs ∧ Gap.isBlank c = false := by
  obtain ⟨solid, found⟩ := read.isNext
  cases text with
  | nil => exact absurd rfl (read?_text_ne_nil _ _ _ found)
  | cons c cs => exact ⟨c, cs, rfl, Gap.isBlank_of_solid solid⟩

end Lexeme

namespace Tokens

/-- A token stands where its characters begin. -/
theorem Spell.of_mem {l finish : Location} {cs : List Char} {ts : List Token} {t : Token}
    (spelt : Spell l cs ts finish) (member : t ∈ ts) :
    ∃ before text rest, cs = before ++ (text ++ rest) ∧ t.location = l.after before ∧
      Lexeme.Reads t.kind t.literal.toList text rest := by
  induction spelt with
  | nil => cases member
  | @cons l finish gap text rest u us skipped placed read others ih =>
    cases member with
    | head => exact ⟨gap, text, rest, rfl, placed, read⟩
    | tail _ later =>
      obtain ⟨before, word, left, shown, place, found⟩ := ih later
      refine ⟨gap ++ (text ++ before), word, left, ?_, ?_, found⟩
      · rw [shown]
        simp only [List.append_assoc]
      · rw [place, placed, Location.after_append, Location.after_append]

end Tokens

namespace Grammar

/-- The construct with every place sent through a map. -/
def Construct.relocate (f : Location → Location) : Construct → Construct
  | .expr level e => .expr level (e.relocate f)
  | .args es => .args (Expr.relocateAll f es)
  | .params names => .params names
  | .block b => .block (b.relocate f)
  | .stmt s => .stmt (s.relocate f)
  | .stmts ss => .stmts (Stmt.relocateAll f ss)

/-- A construct has no places but those of its tokens. -/
theorem Derives.relocate_eq {f : Location → Location} {c : Construct} {ts : List Token}
    (derived : Derives c ts) (fixed : ∀ t ∈ ts, f t.location = t.location) : c.relocate f = c := by
  induction derived
  all_goals simp_all [Construct.relocate, Expr.relocate, Expr.relocateAll, Expr.relocateOption, Stmt.relocate,
    Stmt.relocateAll, Block.relocate, Block.relocateOption]

end Grammar

/-- The map that moves every place but those in a list. It tells whether a place is one
of them. -/
def Location.fixing (places : List Location) (l : Location) : Location :=
  if l ∈ places then l else l.next '\n'

theorem Location.fixing_eq_iff {places : List Location} {l : Location} :
    Location.fixing places l = l ↔ l ∈ places := by
  by_cases member : l ∈ places
  · simp [fixing, member]
  · refine ⟨fun same => ?_, fun other => absurd other member⟩
    rw [fixing, if_neg member] at same
    have lines := congrArg Location.line same
    simp [next] at lines

theorem Location.fixing_token {ts : List Token} {t : Token} (member : t ∈ ts) :
    Location.fixing (ts.map Token.location) t.location = t.location :=
  fixing_eq_iff.mpr (List.mem_map_of_mem member)

/-- What is wrong with a text is told at one of its tokens, or at its end. -/
theorem Program.diagnostic_at_token {source : String} {d : Diagnostic} (recorded : d ∈ (Program.read source).2) :
    ∃ t ∈ (Lexer.ofText source).tokenize.1, t.location = d.location := by
  apply List.mem_map.mp
  apply Location.fixing_eq_iff.mp
  apply Parse.location_of_fixed ?_ ?_ recorded
  · exact Location.fixing_token (List.mem_append_right _ (List.mem_singleton_self _))
  · intro t member
    exact Location.fixing_token (List.mem_append_left _ member)

/-- A program that was read has its places from the tokens in front of the end. -/
theorem Program.relocate_of_parse {source : String} {p : Program} (parsed : Program.parse source = .ok p) :
    p.relocate (Location.fixing ((Tokens.ofText source).list.map Token.location)) = p := by
  have found := Program.read_of_parse parsed
  have derived : Grammar.Derives (.stmts p.statements) (Tokens.ofText source).list :=
    Parse.program_sound (Tokens.ofText source).final _
      (Prod.ext (congrArg (·.1.statements) found) (congrArg Prod.snd found :))
  have same := derived.relocate_eq fun t member => Location.fixing_token member
  exact congrArg Program.mk (Grammar.Construct.stmts.inj same)

/-- A program that has no C is faulted at a token in front of the end. -/
theorem compile_error_at_token {source : String} {e : GenError} (failed : compile source = .error (.noCode e)) :
    ∃ t ∈ (Tokens.ofText source).list, t.location = e.location := by
  unfold compile at failed
  split at failed
  · cases failed
  · next p parsed =>
    split at failed
    · cases failed
    · next error told =>
      cases failed
      have moved := Generator.run_relocate
        (Location.fixing ((Tokens.ofText source).list.map Token.location)) Generator.new p
      rw [Program.relocate_of_parse parsed, told] at moved
      have same : e = e.relocate _ := Except.error.inj moved
      exact List.mem_map.mp (Location.fixing_eq_iff.mp (congrArg GenError.location same).symm)

/-- The first character of a token stands in the row and the column of the token among
the lines that are shown. -/
theorem Tokens.shown_of_mem {source : String} {t : Token} (member : t ∈ (Tokens.ofText source).list) :
    ∃ before c text rest line,
      source.toList = before ++ (c :: text ++ rest) ∧ t.location = Location.start.after before ∧
      Lexeme.Reads t.kind t.literal.toList (c :: text) rest ∧
      (Text.lines source)[t.location.line - 1]? = some line ∧
      line.toList[t.location.column - 1]? = some c := by
  obtain ⟨before, word, rest, shown, place, read⟩ := (Tokens.scan_spell .start source.toList).of_mem member
  obtain ⟨c, text, rfl, solid⟩ := read.head
  have notFeed : c ≠ '\n' := by
    rintro rfl
    exact absurd solid (by decide)
  have notReturn : c ≠ '\r' := by
    rintro rfl
    exact absurd solid (by decide)
  obtain ⟨row, column, part, found, char, down, across⟩ :=
    Text.splitLines_append notFeed before (text ++ rest) .start
  rw [← List.cons_append, ← shown] at found
  obtain ⟨line, listed, stands⟩ := Text.lines_getElem? found char notReturn
  have start : (if row = 0 then Location.start.column else 1) = 1 := ite_self 1
  have first : Location.start.line = 1 := rfl
  have rowOf : t.location.line - 1 = row := by
    rw [place, down, first]
    omega
  have columnOf : t.location.column - 1 = column := by
    rw [place, across, start]
    omega
  exact ⟨before, c, text, rest, line, shown, place, read, rowOf ▸ listed, columnOf ▸ stands⟩

theorem Command.excerpt_of_line {source line : String} {l : Location}
    (listed : (Text.lines source)[l.line - 1]? = some line) :
    Command.excerpt source l =
      "  " ++ line ++ "\n  " ++ String.join (List.replicate (l.column - 1) " ") ++ "^\n" := by
  simp only [Command.excerpt, listed]

/-- An error names a place in the text. A diagnostic is at a token, maybe the one at the
end. A fault is at a token in front of the end, the line of the fault is there to be
shown, and the first character of the token stands in its column, so that is what the
mark is put under. -/
theorem errors_at_tokens (source : String) :
    (∀ d ∈ (Program.read source).2, ∃ t ∈ (Lexer.ofText source).tokenize.1, t.location = d.location) ∧
    ∀ e, compile source = .error (.noCode e) →
      ∃ t ∈ (Lexer.ofText source).tokenize.1, t.kind ≠ .endOfFile ∧ t.location = e.location ∧
        ∃ before c text rest line,
          source.toList = before ++ (c :: text ++ rest) ∧ t.location = Location.start.after before ∧
          Lexeme.Reads t.kind t.literal.toList (c :: text) rest ∧
          (Text.lines source)[e.location.line - 1]? = some line ∧
          line.toList[e.location.column - 1]? = some c ∧
          ∀ path, Command.complaint path source (.noCode e) =
            "Error in " ++ path ++ ": " ++ e.message ++ "\n" ++
              ("  " ++ line ++ "\n  " ++ String.join (List.replicate (e.location.column - 1) " ") ++ "^\n") := by
  refine ⟨fun d recorded => Program.diagnostic_at_token recorded, ?_⟩
  intro e failed
  obtain ⟨t, member, place⟩ := compile_error_at_token failed
  obtain ⟨before, c, text, rest, line, shown, stands, read, listed, char⟩ := Tokens.shown_of_mem member
  rw [place] at listed char
  refine ⟨t, List.mem_append_left _ member, read.kind_ne, place, before, c, text, rest, line, shown, stands,
    read, listed, char, ?_⟩
  intro path
  exact congrArg ("Error in " ++ path ++ ": " ++ e.message ++ "\n" ++ ·) (Command.excerpt_of_line listed)

/-- A string is taken from behind a comment over two lines and a letter of two bytes. -/
theorem errors_at_tokens_sample :
    ∃ source e line, source = "/* é\r\n*/ var s = \"ü\"; print(s - 1);\r\n" ∧
      compile source = .error (.noCode e) ∧ e.location = ⟨2, 25⟩ ∧
      (Text.lines source)[1]? = some line ∧ line.toList[24]? = some '-' ∧
      Command.complaint "a" source (.noCode e) =
        "Error in a: " ++ e.message ++ "\n" ++
          ("  " ++ line ++ "\n  " ++ String.join (List.replicate 24 " ") ++ "^\n") := by
  generalize given : "/* é\r\n*/ var s = \"ü\"; print(s - 1);\r\n" = source
  have failed : compile source = .error (.noCode ⟨.invalidStringOperation .sub, 2, 25⟩) := by
    rw [← given]
    decide +kernel
  have second : (Text.lines source)[1]? = some "*/ var s = \"ü\"; print(s - 1);" := by
    rw [← given]
    decide +kernel
  obtain ⟨_, _, _, _, _, c, _, _, line, _, _, _, listed, char, told⟩ := (errors_at_tokens source).2 _ failed
  obtain rfl := Option.some.inj (second.symm.trans listed)
  exact ⟨source, _, _, rfl, failed, rfl, second, by decide +kernel, told "a"⟩

end ImpToC
