import ImpToC.Token

/-!
What may stand between two tokens: blanks, comments to the end of the line,
and bracketed comments. A bracketed comment that is never closed is no gap.
-/
namespace ImpToC.Gap

/-- Space, tab, carriage return and line feed; nothing else is blank. -/
def isBlank (c : Char) : Bool :=
  c == ' ' || c == '\t' || c == '\r' || c == '\n'

/-- A text cut after its first closing bracket of a comment. -/
def cutAtClose? : List Char → Option (List Char × List Char)
  | [] => none
  | '*' :: '/' :: rest => some (['*', '/'], rest)
  | c :: cs =>
    match cutAtClose? cs with
    | some (body, rest) => some (c :: body, rest)
    | none => none

/-- A text cut after the blank or the comment at its front. The line feed
after a comment is not a part of it. -/
def piece? : List Char → Option (List Char × List Char)
  | [] => none
  | '/' :: '/' :: cs => some ('/' :: '/' :: cs.takeWhile (· != '\n'), cs.dropWhile (· != '\n'))
  | '/' :: '*' :: cs =>
    match cutAtClose? cs with
    | some (body, rest) => some ('/' :: '*' :: body, rest)
    | none => none
  | c :: cs => if isBlank c then some ([c], cs) else none

theorem cutAtClose?_eq_append (cs body rest : List Char)
    (cut : cutAtClose? cs = some (body, rest)) : cs = body ++ rest := by
  fun_induction cutAtClose? cs generalizing body with
  | case1 => cases cut
  | case2 => cases cut; rfl
  | case3 c cs _ inner _ found ih => cases cut; simp [ih inner found]
  | case4 => cases cut

theorem piece?_eq_append (cs piece rest : List Char)
    (cut : piece? cs = some (piece, rest)) : cs = piece ++ rest ∧ piece ≠ [] := by
  unfold piece? at cut
  split at cut
  · cases cut
  · cases cut; simp
  · split at cut
    · next body _ found => cases cut; simp [cutAtClose?_eq_append _ _ _ found]
    · cases cut
  · split at cut
    · cases cut; simp
    · cases cut

theorem piece?_length_lt {cs piece rest : List Char}
    (cut : piece? cs = some (piece, rest)) : rest.length < cs.length := by
  obtain ⟨text, solid⟩ := piece?_eq_append _ _ _ cut
  have := List.length_pos_iff.mpr solid
  simp only [text, List.length_append]
  omega

/-- Skip the gap at the front of a text that begins at `l`: the place and the
text after it. -/
def skip (l : Location) (cs : List Char) : Location × List Char :=
  match found : piece? cs with
  | none => (l, cs)
  | some (piece, rest) =>
    have := piece?_length_lt found
    skip (l.after piece) rest
termination_by cs.length

/-- What `skip` leaves out is a part of the text, and the place moves over it. -/
theorem skip_eq_append (l : Location) (cs : List Char) :
    ∃ gap, cs = gap ++ (skip l cs).2 ∧ (skip l cs).1 = l.after gap := by
  fun_induction skip l cs with
  | case1 l cs _ => exact ⟨[], rfl, rfl⟩
  | case2 l cs piece rest found _ ih =>
    obtain ⟨gap, text, place⟩ := ih
    refine ⟨piece ++ gap, ?_, ?_⟩
    · rw [List.append_assoc, ← text]
      exact (piece?_eq_append _ _ _ found).1
    · rw [place, Location.after_append]

theorem skip_length_le (l : Location) (cs : List Char) : (skip l cs).2.length ≤ cs.length := by
  obtain ⟨gap, text, _⟩ := skip_eq_append l cs
  have := congrArg List.length text
  simp only [List.length_append] at this
  omega

end ImpToC.Gap
