import ImpToC.Proofs.Bytewise.Offsets
import ImpToC.Proofs.Lexing.Relexing

/-!
Lexing a text line by line. Two texts with a line feed between them give the tokens of the
first and then those of the second, so many lines further down. The lexer sees no difference
between a line feed and the end of the text, behind any token and behind any comment, and
nothing but the place is carried over. Only a string and a bracketed comment go on behind a
line feed, so the first text must close all of its own.
-/
namespace ImpToC

/-- The token of a string or of a comment that is never closed. The other illegal tokens are
a single character that is no quote, or two dots. -/
def Token.Unterminated (t : Token) : Prop :=
  t.kind = .illegal ∧ (t.literal.toList.head? = some '"' ∨ t.literal.toList = ['/', '*'])

instance (t : Token) : Decidable t.Unterminated := inferInstanceAs (Decidable (_ ∧ _))

/-- The place so many lines further down. -/
def Location.below (n : Nat) (l : Location) : Location := ⟨l.line + n, l.column⟩

namespace Location

theorem below_next (n : Nat) (l : Location) (c : Char) : (l.below n).next c = (l.next c).below n := by
  by_cases feed : c = '\n'
  · simp only [next, below, if_pos feed]
    congr 1
    omega
  · simp only [next, below, if_neg feed]

theorem below_after (n : Nat) (l : Location) (text : List Char) :
    (l.below n).after text = (l.after text).below n := by
  induction text generalizing l with
  | nil => rfl
  | cons c text ih => rw [after_cons, after_cons, below_next, ih]

/-- Behind a line feed columns count from one again. -/
theorem start_after_feed (text : List Char) :
    (start.after text).next '\n' = start.below (1 + text.count '\n') := by
  rw [start_after, next, if_pos rfl, below]
  simp only [start]
  congr 1
  omega

end Location

/-- What ends a run at the end of the text ends it in front of a text that begins so. -/
theorem EndsRun.extend {p : Char → Bool} {rest : List Char} (ends : EndsRun p rest) {c : Char}
    (stop : p c = false) (more : List Char) : EndsRun p (rest ++ c :: more) := by
  cases rest with
  | nil => exact endsRun_cons.mpr stop
  | cons d rest => exact endsRun_cons.mpr (endsRun_cons.mp ends)

namespace Gap

/-- A gap is one still if a line feed and more text are put behind. -/
theorem Fills.extend {rest gap : List Char} (filled : Fills rest gap) (more : List Char) :
    Fills (rest ++ '\n' :: more) gap := by
  induction filled with
  | nil => exact .nil
  | blank blank _ ih => exact .blank blank ih
  | @line body gap inside ends _ ih =>
    have further := ends.extend (c := '\n') (by decide) more
    rw [List.append_assoc] at further
    exact .line inside further ih
  | bracketed inside _ ih => exact .bracketed inside ih

theorem Fills.append {rest first second : List Char} (filled : Fills (second ++ rest) first)
    (more : Fills rest second) : Fills rest (first ++ second) := by
  induction filled with
  | nil => exact more
  | blank blank _ ih => exact .blank blank ih
  | @line body gap inside ends _ ih =>
    rw [← List.append_assoc] at ends
    have joined := Fills.line inside ends ih
    rwa [← List.append_assoc] at joined
  | @bracketed body gap inside _ ih =>
    have joined := Fills.bracketed inside ih
    rwa [← List.append_assoc closing, ← List.append_assoc body] at joined

end Gap

namespace Lexeme

/-- A token that is closed is read in front of a line feed as it is at the end of the text. -/
theorem Reads.extend {t : Token} {text rest : List Char} (read : Reads t.kind t.literal.toList text rest)
    (closed : ¬ t.Unterminated) (more : List Char) :
    Reads t.kind t.literal.toList text (rest ++ '\n' :: more) := by
  unfold Token.Unterminated at closed
  generalize t.kind = kind, t.literal.toList = literal at read closed
  cases read with
  | name some letters free ends => exact .name some letters free (ends.extend (by decide) more)
  | keyword ends => exact .keyword (ends.extend (by decide) more)
  | number some all ends => exact .number some all (ends.extend (by decide) more)
  | string inside => exact .string inside
  | @symbol s _ ends => exact .symbol (ends.extend (extensions_solid s (by decide)) more)
  | bang ends => exact .bang (ends.extend (by decide) more)
  | twoDots ends => exact .twoDots (ends.extend (by decide) more)
  | stray stray => exact .stray stray
  | openString inside => exact absurd ⟨rfl, .inl rfl⟩ closed
  | openComment inside => exact absurd ⟨rfl, .inr rfl⟩ closed

end Lexeme

namespace Tokens.Spell

variable {l finish : Location} {cs : List Char} {ts : List Token}

theorem finish_eq (spelt : Spell l cs ts finish) : finish = l.after cs := by
  induction spelt with
  | nil _ => rfl
  | cons _ placed _ _ ih => rw [ih, placed, Location.after_append, Location.after_append]

/-- Tokens do not depend on the line that their text begins in. -/
theorem shift (spelt : Spell l cs ts finish) (n : Nat) :
    Spell (l.below n) cs (ts.map (Token.relocate (Location.below n))) (finish.below n) := by
  induction spelt with
  | nil skipped =>
    rw [← Location.below_after]
    exact .nil skipped
  | @cons l finish gap text rest t ts skipped placed read _ ih =>
    rw [← Location.below_after] at ih
    refine .cons skipped ?_ read ih
    rw [Token.relocate_location, placed, Location.below_after]

/-- A gap in front of a text joins the gap that the text begins with. -/
theorem behind {gap : List Char} (skipped : Gap.Fills cs gap) (spelt : Spell (l.after gap) cs ts finish) :
    Spell l (gap ++ cs) ts finish := by
  generalize start : l.after gap = middle at spelt
  cases spelt with
  | nil more =>
    rw [← start, ← Location.after_append]
    refine .nil (.append ?_ more)
    rwa [List.append_nil]
  | cons more placed read others =>
    rw [← List.append_assoc]
    refine .cons (.append skipped more) ?_ read others
    rw [placed, ← start, Location.after_append]

/-- The tokens on both sides of a line feed. -/
theorem join {finish' : Location} {cs' : List Char} {ts' : List Token} (spelt : Spell l cs ts finish)
    (closed : ∀ t ∈ ts, ¬ t.Unterminated) (spelt' : Spell (finish.next '\n') cs' ts' finish') :
    Spell l (cs ++ '\n' :: cs') (ts ++ ts') finish' := by
  induction spelt with
  | @nil l gap skipped => exact behind (skipped.extend cs') (behind (.blank (by decide) .nil) spelt')
  | @cons l finish gap text rest t ts skipped placed read others ih =>
    obtain ⟨first, later⟩ := List.forall_mem_cons.mp closed
    have filled := skipped.extend cs'
    rw [List.append_assoc] at filled
    rw [List.append_assoc, List.append_assoc]
    exact .cons filled placed (read.extend first cs') (ih later spelt')

end Tokens.Spell

namespace Lexer

/-- Two texts with a line feed between them have the tokens of the first, but for the one at
its end, and then the tokens of the second. These are as many lines further down as there are
line feeds in front of the second text. -/
theorem tokenize_joined (first second : String)
    (closed : ∀ t ∈ (Lexer.ofText first).tokenize.1, ¬ t.Unterminated) :
    (Lexer.ofText (first ++ "\n" ++ second)).tokenize.1 =
      (Lexer.ofText first).tokenize.1.filter (·.kind != .endOfFile) ++
        (Lexer.ofText second).tokenize.1.map (Token.relocate (Location.below (1 + first.toList.count '\n'))) := by
  have spelt := Tokens.scan_spell .start first.toList
  have spelt' := Tokens.scan_spell .start second.toList
  have shifted := spelt'.shift (1 + first.toList.count '\n')
  rw [← Location.start_after_feed, ← spelt.finish_eq] at shifted
  have joined := spelt.join (fun t member => closed t (List.mem_append_left _ member)) shifted
  have text : (first ++ "\n" ++ second).toList = first.toList ++ '\n' :: second.toList := by
    simp [String.toList_append]
  rw [← text] at joined
  have whole : Tokens.ofText (first ++ "\n" ++ second) = _ := joined.scan_eq
  have kept : (Tokens.ofText first).toList.filter (·.kind != .endOfFile) = (Tokens.ofText first).list := by
    have ends : (Tokens.ofText first).final.kind = .endOfFile := Tokens.scan_final_kind _ _
    have others : ∀ t ∈ (Tokens.ofText first).list, (t.kind != .endOfFile) = true :=
      fun t member => bne_iff_ne.mpr (spelt.kind_ne t member)
    rw [Tokens.toList, List.filter_append, List.filter_eq_self.mpr others]
    simp [ends]
  have final : (Tokens.ofText second).final = .atEnd (Tokens.ofText second).final.location :=
    Tokens.scan_final _ _
  change (Tokens.ofText (first ++ "\n" ++ second)).toList =
    (Tokens.ofText first).toList.filter _ ++ (Tokens.ofText second).toList.map _
  rw [whole, kept, Tokens.toList, Tokens.toList, List.map_append, List.map_singleton, final]
  exact List.append_assoc _ _ _

/-- A word, two dots and a comment with a quote in it are at the end of their lines, and a
string that is never closed comes behind. -/
theorem tokenize_joined_sample :
    (∀ t ∈ (Lexer.ofText "..\nx// \"").tokenize.1, ¬ t.Unterminated) ∧
      (Lexer.ofText ("..\nx// \"" ++ "\n" ++ "=\n\"y")).tokenize.1 =
        [⟨.illegal, "..", ⟨1, 1⟩⟩, ⟨.ident, "x", ⟨2, 1⟩⟩, ⟨.symbol .assign, "=", ⟨3, 1⟩⟩,
          ⟨.illegal, "\"y", ⟨4, 1⟩⟩, .atEnd ⟨4, 3⟩] := by
  have closed : ∀ t ∈ (Lexer.ofText "..\nx// \"").tokenize.1, ¬ t.Unterminated := by decide +kernel
  refine ⟨closed, ?_⟩
  rw [tokenize_joined _ _ closed]
  decide +kernel

end Lexer

end ImpToC
