import Mathlib.Data.List.DropRight
import ImpToC.Proofs.Bytewise.Agreement
import ImpToC.Proofs.Locality.Layout

/-!
Where a lexer by bytes comes to stand, and what its places mean. After any requests it is
between two characters, and all it has cut out of the text lies between such offsets. The
line of a token counts the line feeds in front of its first byte, the column counts the
characters behind the last of them.
-/
namespace ImpToC

open Bytes (encode)

/-- Counting as one goes is counting in the end. -/
theorem Location.start_after (before : List Char) :
    Location.start.after before =
      ⟨1 + before.count '\n', 1 + (before.rtakeWhile (· != '\n')).length⟩ := by
  induction before using List.reverseRecOn with
  | nil => rfl
  | append_singleton before c ih =>
    rw [after_append, ih, after_cons, after_nil, next, List.count_append, List.rtakeWhile_concat]
    by_cases feed : c = '\n'
    · simp [feed, Nat.add_assoc]
    · simp [feed, Nat.add_assoc]

namespace Bytewise

/-- A part of a text cannot be cut out exactly if one of its ends is inside of a character or
behind the text, or if the ends are in the wrong order. -/
theorem Stretch.cut?_isSome_iff (source : String) (start stop : Nat) :
    ((whole (Bytes.ofText source)).cut? start stop).isSome ↔
      start ≤ stop ∧ (⟨start⟩ : String.Pos.Raw).IsValid source ∧ (⟨stop⟩ : String.Pos.Raw).IsValid source := by
  rw [← Bytes.isBoundary_ofText, ← Bytes.isBoundary_ofText, cut?]
  split
  · next fits => exact iff_of_true rfl fits
  · next fails => exact iff_of_false (by simp) fails

/-- The stretch can be cut out of the source, so it begins and ends between two characters. -/
structure Stretch.Fits (source : String) (s : Stretch) : Prop where
  cut : (whole (Bytes.ofText source)).cut? s.start s.stop = some s
  ordered : s.start ≤ s.stop
  start : (⟨s.start⟩ : String.Pos.Raw).IsValid source
  stop : (⟨s.stop⟩ : String.Pos.Raw).IsValid source

theorem Stretch.Within.fits {source : String} {s : Stretch} (within : s.Within source.toList) :
    s.Fits source := by
  obtain ⟨before, part, rest, parted, rfl⟩ := within
  have shown : (whole (Bytes.ofText source)).bytes = encode (before ++ (part ++ rest)) := by
    rw [← parted]
    exact Bytes.ofText_eq_encode source
  have cut := cut?_encode shown
  simp only [whole, Nat.zero_add] at cut
  have possible := (cut?_isSome_iff source _ _).mp (Option.isSome_of_eq_some cut)
  exact ⟨cut, possible.1, possible.2.1, possible.2.2⟩

theorem map_eq_of_forall₂ {α β γ : Type} {f : α → γ} {g : β → γ} {as : List α} {bs : List β}
    (same : List.Forall₂ (fun a b => f a = g b) as bs) : as.map f = bs.map g := by
  rw [← List.forall₂_eq_eq_eq, List.forall₂_map_left_iff, List.forall₂_map_right_iff]
  exact same

namespace Cursor

/-- In whatever way a lexer by bytes is asked for tokens, it answers. It is then at an offset
between two characters, everything it has cut out lies between such offsets, the texts of its
tokens are texts, and the tokens and what is left are those of the lexer by characters. -/
theorem answers?_on_boundaries (source : String) (requests : List Request) :
    ∃ answers k, (ofText source).answers? requests = some (answers, k) ∧
      k.position ≤ source.utf8ByteSize ∧ (⟨k.position⟩ : String.Pos.Raw).IsValid source ∧
      (∀ piece ∈ answers.flatten, ∀ s ∈ piece.cuts, s.Fits source) ∧
      answers.map (·.map Piece.token?) = ((Lexer.ofText source).answers requests).1.map (·.map some) ∧
      (Bytes.ofText source).drop k.position = encode ((Lexer.ofText source).answers requests).2.rest := by
  obtain ⟨answers, k, found, shown, agrees⟩ := (agrees_ofText source).answers? requests
  obtain ⟨before, parted, stands⟩ := agrees.stands
  have valid : (⟨k.position⟩ : String.Pos.Raw).IsValid source := by
    rw [← Bytes.isBoundary_ofText, Bytes.ofText_eq_encode, parted, stands.position]
    exact Bytes.isBoundary_encode before _
  refine ⟨answers, k, found, valid.le_utf8ByteSize, valid, ?_, ?_, ?_⟩
  · have each := (List.rel_flatten shown).imp fun piece t shown =>
      (⟨fun s cut => (shown.cuts s cut).fits, shown⟩ : (∀ s ∈ piece.cuts, s.Fits source) ∧ _)
    exact ((List.forall₂_and_left _ _).mp each).1
  · exact map_eq_of_forall₂ (shown.imp fun _ _ shown => map_eq_of_forall₂ (shown.imp fun _ _ shown => shown.token))
  · rw [Bytes.ofText_eq_encode, parted, ← stands.source]
    exact stands.ahead

/-- The tokens of a text by the offsets of their first bytes. The line of each is one more than
the number of line feeds in front of it, its column one more than the number of characters
behind the last of them. The places go up from token to token, and the one at the end of the
text is the last. -/
theorem tokenize?_places (source : String) :
    ∃ pieces k, (ofText source).tokenize? = some (pieces, k) ∧
      List.Forall₂
        (fun piece t => piece.token? = some t ∧ ∃ before rest, source.toList = before ++ rest ∧
          piece.start = (encode before).length ∧ Begins t rest ∧
          t.location.line = 1 + before.count '\n' ∧
          t.location.column = 1 + (before.rtakeWhile (· != '\n')).length)
        pieces (Lexer.ofText source).tokenize.1 ∧
      (∃ tokens finish, (Lexer.ofText source).tokenize.1 = tokens ++ [.atEnd finish] ∧
        ∀ t ∈ tokens, t.kind ≠ .endOfFile) ∧
      (Lexer.ofText source).tokenize.1.Pairwise fun t u => t.location.Before u.location := by
  obtain ⟨pieces, k, found, shown, _⟩ := (agrees_ofText source).tokenize?
  have spelt := Tokens.scan_spell .start source.toList
  refine ⟨pieces, k, found, shown.imp ?_, ⟨_, _, congrArg Tokens.toList spelt.scan_eq, spelt.kind_ne⟩,
    Tokens.scan_pairwise .start source.toList⟩
  rintro piece t ⟨token, _, before, rest, parted, offset, place, begins⟩
  rw [Location.start_after] at place
  exact ⟨token, before, rest, parted, offset, begins, congrArg Location.line place,
    congrArg Location.column place⟩

end Cursor

end Bytewise

end ImpToC
