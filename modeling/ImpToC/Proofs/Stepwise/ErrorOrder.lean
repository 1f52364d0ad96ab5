import ImpToC.Proofs.Stepwise.Agreement
import ImpToC.Proofs.Stepwise.Strides

/-!
Diagnostics come out in the order of the text. What was recorded is never told behind the
first token at which an error can still be told, and a new error is told at this token. The
one place where recovery gives a token back is a brace that closed a block: the error was
told behind it. But there recovery has stopped for the loop of the enclosing block, which
takes the brace for its own end, so no error is told at the brace after that.
-/
namespace ImpToC

namespace Parse.Machine

variable {final : Token} {σ τ : State}

/-- What comes first in a list of tokens does not stand behind what comes first in its end. -/
theorem InOrder.head_le {ts us : List Token} (inOrder : InOrder final us) (ending : ts <:+ us) :
    (us.headD final).location ≤ (ts.headD final).location := by
  obtain ⟨front, rfl⟩ := ending
  induction front with
  | nil => exact Location.le_refl _
  | cons t front ih =>
    have later := inOrder.suffix (List.suffix_cons t (front ++ ts))
    exact Location.le_trans inOrder.head.le (ih later)

namespace State

/-- The tokens at which an error can still be told. A brace that ends the block of a loop is
certain to be used. -/
def ahead (σ : State) : List Token :=
  match σ.control, σ.window with
  | .loop (some _) _, t :: rest => if t.kind = .symbol .rightBrace then rest else t :: rest
  | _, _ => σ.unread

theorem ahead_of_value (value : σ.control.loops = []) : σ.ahead = σ.unread := by
  obtain ⟨control, stack, window, errors, depth⟩ := σ
  cases control with
  | loop opened done => cases value
  | _ => rfl

/-- The loop of a block that stands at a brace will use it. -/
theorem ahead_of_closing {l : Location} {done : List Stmt} {brace : Token} {rest : List Token}
    (control : σ.control = .loop (some l) done) (window : σ.window = brace :: rest)
    (closes : brace.kind = .symbol .rightBrace) : σ.ahead = rest := by
  unfold ahead
  rw [control, window]
  exact if_pos closes

/-- A loop that does not end here. -/
theorem ahead_of_goesOn {opened : Option Location} {done : List Stmt}
    (control : σ.control = .loop opened done)
    (goesOn : ∀ l t, opened = some l → σ.window.head? = some t → t.kind ≠ .symbol .rightBrace) :
    σ.ahead = σ.window := by
  obtain ⟨_, stack, window, errors, depth⟩ := σ
  obtain rfl : _ = Control.loop opened done := control
  cases opened with
  | none => rfl
  | some l =>
    cases window with
    | nil => rfl
    | cons t rest => exact if_neg (goesOn l t rfl rfl)

theorem ahead_suffix (σ : State) : σ.ahead <:+ σ.unread := by
  obtain ⟨control, stack, window, errors, depth⟩ := σ
  cases control with
  | loop opened done =>
    cases opened with
    | none => exact List.suffix_refl _
    | some l =>
      cases window with
      | nil => exact List.suffix_refl _
      | cons t rest =>
        change (if t.kind = .symbol .rightBrace then rest else t :: rest) <:+ t :: rest
        split
        · exact List.suffix_cons t rest
        · exact List.suffix_refl _
  | _ => exact List.suffix_refl _

end State

/-- The errors so far are in order, and none is told behind the tokens ahead. An error that
is about to be recorded is told at the first token that is not used. -/
structure Ordered (final : Token) (σ : State) : Prop where
  inOrder : InOrder final σ.window
  sorted : (σ.errors.map Diagnostic.location).Pairwise (· ≤ ·)
  bounded : ∀ d ∈ σ.errors, d.location ≤ (σ.ahead.headD final).location
  told : ∀ error, σ.control = .failed error → error.location = (σ.unread.headD final).location

namespace Ordered

/-- A step that records nothing. -/
theorem keep (ordered : Ordered final σ) (window : τ.window <:+ σ.window) (errors : τ.errors = σ.errors)
    (ahead : τ.ahead <:+ σ.ahead)
    (told : ∀ error, τ.control = .failed error → error.location = (τ.unread.headD final).location) :
    Ordered final τ := by
  refine ⟨ordered.inOrder.suffix window, errors ▸ ordered.sorted, ?_, told⟩
  intro d recorded
  rw [errors] at recorded
  have whole : InOrder final σ.ahead := ordered.inOrder.suffix (σ.ahead_suffix.trans σ.unread_suffix)
  exact Location.le_trans (ordered.bounded d recorded) (whole.head_le ahead)

/-- What is left behind recovery was not used, but for a brace that the loop will use. -/
theorem recover_ahead {error : Diagnostic} {opened : Option Location} (done : List Stmt) (below : List Frame)
    (errors : List Diagnostic) (control : σ.control = .failed error) (outermost : opened = none → σ.depth = 0) :
    (State.mk (.loop opened done) below (recover σ.depth σ.window) errors σ.depth).ahead <:+ σ.unread := by
  rcases σ.unread_of_failed control with whole | ⟨t, used⟩
  · rw [whole]
    exact (State.ahead_suffix _).trans (recover_suffix _ _)
  · by_cases stays : t.kind = .symbol .rightBrace ∧ 0 < σ.depth
    · cases opened with
      | none => exact absurd stays.2 (by simp [outermost rfl])
      | some l =>
        have kept : recover σ.depth σ.window = t :: σ.unread := by rw [used, recover, if_pos stays]
        exact ⟨[], State.ahead_of_closing rfl kept stays.1⟩
    · have moves : recover σ.depth σ.window <:+ σ.unread := by
        have shorter := recover_length_lt σ.depth t σ.unread stays
        rw [used]
        rcases List.suffix_cons_iff.mp (recover_suffix σ.depth (t :: σ.unread)) with same | later
        · rw [same] at shorter
          exact absurd shorter (Nat.lt_irrefl _)
        · exact later
      exact (State.ahead_suffix _).trans moves

theorem step (ordered : Ordered final σ) (balanced : Balanced σ) (moved : step final σ = some τ) :
    Ordered final τ := by
  have window : τ.window <:+ σ.window := (balanced.step moved).1.window
  cases step_stride ordered.inOrder moved with
  | @begins opened done control goesOn next =>
    subst next
    refine ordered.keep window rfl ?_ (by simp)
    rw [State.ahead_of_goesOn control goesOn]
    exact List.suffix_refl _
  | proceeds value alive calls proceeds =>
    cases proceeds with
    | @within used plain unread inside errors depth waiting told =>
      refine ordered.keep window errors ?_ told
      rw [State.ahead_of_value value, unread]
      exact τ.ahead_suffix.trans (List.suffix_append _ _)
    | @into used brace plain opens unread control errors depth waiting =>
      refine ordered.keep window errors ?_ (by simp [control])
      rw [State.ahead_of_value value, unread, List.append_cons]
      exact τ.ahead_suffix.trans (List.suffix_append _ _)
  | @closes l done brace rest control here closes next =>
    subst next
    refine ordered.keep window rfl ?_ (by simp)
    rw [State.ahead_of_closing control here closes, State.ahead_of_value rfl]
    change σ.window.tail <:+ rest
    rw [here]
    exact List.suffix_refl _
  | @runsOut l done control here next =>
    subst next
    have atEnd : State.unread ⟨.failed ⟨.unclosedBlock l, final.location⟩, σ.stack, σ.window, σ.errors,
        σ.depth - 1⟩ = [] := by
      rw [here]
      rfl
    refine ordered.keep window rfl ?_ ?_
    · rw [State.ahead_of_value rfl, atEnd]
      exact List.nil_suffix
    · rintro error ⟨⟩
      rw [atEnd]
      rfl
  | @adds s opened done below last rest control stack here next =>
    subst next
    refine ordered.keep window rfl ?_ (by simp)
    have value : σ.control.loops = [] := by rw [control]; rfl
    have unread : σ.unread = rest := by
      unfold State.unread
      rw [control, here]
      rfl
    rw [State.ahead_of_value value, unread]
    exact State.ahead_suffix _
  | givesUp control plain stack next =>
    subst next
    exact ordered.keep window rfl (List.suffix_refl _) ordered.told
  | @recovers error opened done below control stack next =>
    subst next
    have outermost : opened = none → σ.depth = 0 := by
      rintro rfl
      refine balanced.depth_eq_zero ?_
      simp [State.loops, control, stack, Control.loops, Frame.loop?]
    have unused : σ.ahead = σ.unread := State.ahead_of_value (by rw [control]; rfl)
    have told : error.location = (σ.unread.headD final).location := ordered.told error control
    have earlier : ∀ d ∈ σ.errors, d.location ≤ error.location := by
      rw [told, ← unused]
      exact ordered.bounded
    have ahead := recover_ahead done below (σ.errors ++ [error]) control outermost
    have onward := (ordered.inOrder.suffix σ.unread_suffix).head_le ahead
    rw [← told] at onward
    refine ⟨ordered.inOrder.suffix window, ?_, ?_, by simp⟩
    · rw [List.map_append, List.pairwise_append]
      refine ⟨ordered.sorted, List.pairwise_singleton _ _, ?_⟩
      simpa using earlier
    · intro d recorded
      rcases List.mem_append.mp recorded with old | new
      · exact Location.le_trans (earlier d old) onward
      · obtain rfl := List.mem_singleton.mp new
        exact onward

/-- Errors stay in order, with none told behind the tokens ahead, in every state that a machine in
balance gets to. -/
theorem reaches (ordered : Ordered final σ) (balanced : Balanced σ) (run : Reaches final σ τ) :
    Ordered final τ := by
  induction run with
  | refl => exact ordered
  | tail ran moved ih => exact ih.step (balanced.reaches ran) moved

/-- At the start of a text. -/
theorem start {input : List Token} (inOrder : InOrder final input) : Ordered final (start input) where
  inOrder := inOrder
  sorted := .nil
  bounded d recorded := by cases recorded
  told error failed := by cases failed

end Ordered

end Parse.Machine

/-- The diagnostics of a program are in the order of its text: none is told behind the one
that comes after it. -/
theorem Program.diagnostics_in_order (source : String) :
    ((Program.read source).2.map Diagnostic.location).Pairwise (· ≤ ·) := by
  have inOrder : Parse.Machine.InOrder (Tokens.ofText source).final (Tokens.ofText source).list :=
    Tokens.scan_pairwise _ _
  have start := Parse.Machine.Ordered.start inOrder
  have balanced := Parse.Machine.start_balanced (Tokens.ofText source).list
  have halted := start.reaches balanced (Parse.Machine.program_reaches _ [] [])
  exact halted.sorted

end ImpToC
