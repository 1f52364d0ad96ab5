import Mathlib.Data.Stream.Init
import ImpToC.Proofs.Bytewise.Cursor
import ImpToC.Proofs.Grammar.Soundness
import ImpToC.Proofs.Lexing.Lossless

/-!
A lexer can be asked for the next token, for the next one of its stream, and for all that is
left of the stream, in any order. Whatever it is asked, it hands out the tokens of the text
one after the other, and at the end the last of them again and again. What the stream does
is a matter of one flag, which only the stream itself sets.
-/
namespace ImpToC

open Bytewise (Request)

namespace Tokens

/-- The tokens, and behind them the one at the end without an end. -/
def endless (ts : Tokens) : Stream' Token := ts.toList ++ₛ Stream'.const ts.final

theorem endless_eq (ts : Tokens) : ts.endless = ts.list ++ₛ Stream'.const ts.final := by
  rw [endless, toList, Stream'.append_append_stream]
  exact congrArg (ts.list ++ₛ ·) (Stream'.const_eq ts.final).symm

theorem scan_nil (l : Location) : scan l [] = ⟨[], .atEnd l⟩ := (Spell.nil .nil).scan_eq

end Tokens

namespace Lexer

/-- What is still to come if a lexer is asked for one token after the other. -/
def ahead (lexer : Lexer) : Stream' Token := (Tokens.scan lexer.location lexer.rest).endless

theorem ahead_end (l : Location) (finished : Bool) :
    ahead ⟨l, [], finished⟩ = Stream'.const (.atEnd l) := by
  rw [ahead, Tokens.scan_nil, Tokens.endless_eq]
  rfl

/-- One token is taken off the front. At the end it is the same one ever again. -/
theorem nextToken_ahead (lexer : Lexer) : lexer.ahead = [lexer.nextToken.1] ++ₛ lexer.nextToken.2.ahead := by
  obtain ⟨l, cs, finished⟩ := lexer
  obtain ⟨⟨place, text⟩, skipped⟩ : ∃ found, Gap.skip l cs = found := ⟨_, rfl⟩
  have scanned := Tokens.scan_eq l cs
  rw [skipped] at scanned
  cases found : Lexeme.read? text with
  | none =>
    have given : nextToken ⟨l, cs, finished⟩ = (.atEnd place, ⟨place, [], finished⟩) := by
      simp only [nextToken, skipped, found]
    rw [found] at scanned
    rw [given, ahead_end, ahead, scanned, Tokens.endless_eq]
    exact Stream'.const_eq _
  | some result =>
    obtain ⟨x, rest⟩ := result
    have given : nextToken ⟨l, cs, finished⟩ =
        (⟨x.kind, String.ofList x.literal, place⟩, ⟨place.after x.text, rest, finished⟩) := by
      simp only [nextToken, skipped, found]
    rw [found] at scanned
    rw [given, ahead, ahead, scanned, Tokens.endless_eq, Tokens.endless_eq]
    rfl

/-- Asking for the next token says nothing about the stream. -/
theorem nextToken_finished (lexer : Lexer) : lexer.nextToken.2.finished = lexer.finished := by
  unfold nextToken
  dsimp only
  split <;> rfl

theorem next?_of_finished {lexer : Lexer} (finished : lexer.finished = true) : lexer.next? = (none, lexer) := by
  rw [next?, if_pos finished]

theorem next?_of_unfinished {lexer : Lexer} (unfinished : lexer.finished = false) :
    lexer.next? = (some lexer.nextToken.1,
      ⟨lexer.nextToken.2.location, lexer.nextToken.2.rest, lexer.nextToken.1.kind == .endOfFile⟩) := by
  rw [next?, unfinished]
  rfl

theorem tokenize_of_finished {lexer : Lexer} (finished : lexer.finished = true) :
    lexer.tokenize = ([], lexer) := by
  rw [tokenize, if_pos finished]

theorem tokenize_of_unfinished {lexer : Lexer} (unfinished : lexer.finished = false) :
    lexer.tokenize = ((Tokens.scan lexer.location lexer.rest).toList,
      ⟨(Tokens.scan lexer.location lexer.rest).final.location, [], true⟩) := by
  rw [tokenize, unfinished]
  rfl

/-- What is handed out is taken off the front of what is to come. -/
theorem answer_ahead (lexer : Lexer) (request : Request) :
    lexer.ahead = (lexer.answer request).1 ++ₛ (lexer.answer request).2.ahead := by
  cases request with
  | token => exact lexer.nextToken_ahead
  | next =>
    rw [answer]
    cases flag : lexer.finished with
    | true =>
      rw [next?_of_finished flag]
      rfl
    | false =>
      rw [next?_of_unfinished flag]
      exact lexer.nextToken_ahead
  | rest =>
    rw [answer]
    cases flag : lexer.finished with
    | true =>
      rw [tokenize_of_finished flag]
      rfl
    | false =>
      rw [tokenize_of_unfinished flag, ahead_end, ← Tokens.scan_final]
      rfl

theorem answers_ahead (lexer : Lexer) (requests : List Request) :
    lexer.ahead = (lexer.answers requests).1.flatten ++ₛ (lexer.answers requests).2.ahead := by
  induction requests generalizing lexer with
  | nil => rfl
  | cons request requests ih =>
    rw [lexer.answer_ahead request, ih, answers, List.flatten_cons, Stream'.append_append_stream]

/-- The stream was asked and has handed out the token at the end. -/
def EndGiven (request : Request) (tokens : List Token) : Prop :=
  request ≠ .token ∧ ∃ t ∈ tokens, t.kind = .endOfFile

/-- The stream is finished by the token at the end, if it hands it out itself. -/
theorem answer_finished (lexer : Lexer) (request : Request) :
    (lexer.answer request).2.finished = true ↔
      lexer.finished = true ∨ EndGiven request (lexer.answer request).1 := by
  cases request with
  | token =>
    rw [answer, nextToken_finished]
    simp [EndGiven]
  | next =>
    rw [answer]
    cases flag : lexer.finished with
    | true =>
      rw [next?_of_finished flag]
      simp [flag]
    | false =>
      rw [next?_of_unfinished flag]
      simp [EndGiven]
  | rest =>
    rw [answer]
    cases flag : lexer.finished with
    | true =>
      rw [tokenize_of_finished flag]
      simp [flag]
    | false =>
      have ends := Tokens.scan_final_kind lexer.location lexer.rest
      rw [tokenize_of_unfinished flag]
      simp [EndGiven, Tokens.toList, ends]

/-- One of the requests asked the stream and was given the token at the end. -/
def EndStreamed (requests : List Request) (answers : List (List Token)) : Prop :=
  ∃ call ∈ requests.zip answers, EndGiven call.1 call.2

theorem answers_finished (lexer : Lexer) (requests : List Request) :
    (lexer.answers requests).2.finished = true ↔
      lexer.finished = true ∨ EndStreamed requests (lexer.answers requests).1 := by
  induction requests generalizing lexer with
  | nil => simp [answers, EndStreamed]
  | cons request requests ih =>
    rw [answers, ih, answer_finished]
    simp only [EndStreamed, List.zip_cons_cons, List.mem_cons, exists_eq_or_imp, or_assoc]

theorem next?_eq_none_iff (lexer : Lexer) : lexer.next?.1 = none ↔ lexer.finished = true := by
  cases flag : lexer.finished with
  | true => simp [next?_of_finished flag]
  | false => simp [next?_of_unfinished flag]

theorem tokenize_eq_nil_iff (lexer : Lexer) : lexer.tokenize.1 = [] ↔ lexer.finished = true := by
  cases flag : lexer.finished with
  | true => simp [tokenize_of_finished flag]
  | false => simp [tokenize_of_unfinished flag, Tokens.toList]

/-- Whatever a lexer is asked for, the tokens it hands out are the first ones of the text,
behind which the one at the end comes over and over. After that the stream has nothing left,
neither one token nor a list of them, just if the stream itself has handed out the token at
the end, however often that token was given as the next one. -/
theorem answers_in_order (source : String) (requests : List Request) :
    ∃ tokens finish answers lexer,
      (Lexer.ofText source).tokenize.1 = tokens ++ [.atEnd finish] ∧
      (∀ t ∈ tokens, t.kind ≠ .endOfFile) ∧
      (Lexer.ofText source).answers requests = (answers, lexer) ∧
      answers.flatten =
        ((tokens ++ [.atEnd finish]) ++ₛ Stream'.const (.atEnd finish)).take answers.flatten.length ∧
      (lexer.next?.1 = none ↔ EndStreamed requests answers) ∧
      (lexer.tokenize.1 = [] ↔ EndStreamed requests answers) := by
  have spelt := Tokens.scan_spell .start source.toList
  have whole : Tokens.ofText source = _ := spelt.scan_eq
  have order := (Lexer.ofText source).answers_ahead requests
  have flag := (Lexer.ofText source).answers_finished requests
  refine ⟨_, _, _, _, congrArg Tokens.toList whole, spelt.kind_ne, rfl, ?_, ?_, ?_⟩
  · change _ = Stream'.take _ (Tokens.endless ⟨_, _⟩)
    rw [← whole]
    change _ = Stream'.take _ (Lexer.ofText source).ahead
    rw [order, Stream'.take_append_of_le_length _ _ _ (Nat.le_refl _), List.take_length]
  · rw [next?_eq_none_iff, flag]
    exact or_iff_right Bool.false_ne_true
  · rw [tokenize_eq_nil_iff, flag]
    exact or_iff_right Bool.false_ne_true

example : ((Lexer.ofText "x //").answers [.token, .token, .next, .rest, .token, .next]).1 =
    [[⟨.ident, "x", ⟨1, 1⟩⟩], [.atEnd ⟨1, 5⟩], [.atEnd ⟨1, 5⟩], [], [.atEnd ⟨1, 5⟩], []] := by
  decide +kernel

end Lexer

end ImpToC
