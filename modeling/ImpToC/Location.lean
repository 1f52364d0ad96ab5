/-!
Places in a source text. Lines and columns count from one, a column is one
character, and only a line feed starts a new line. Places are ordered as they
follow each other in a text.
-/
namespace ImpToC

structure Location where
  line : Nat
  column : Nat
  deriving DecidableEq, Repr

namespace Location

/-- Where a text begins. -/
def start : Location := ⟨1, 1⟩

/-- The place just after the character `c` that stands at `l`. -/
def next (l : Location) (c : Char) : Location :=
  if c = '\n' then ⟨l.line + 1, 1⟩ else ⟨l.line, l.column + 1⟩

/-- The place just after a text that begins at `l`. -/
def after (l : Location) (text : List Char) : Location :=
  text.foldl next l

def describe (l : Location) : String :=
  s!"line {l.line}, column {l.column}"

@[simp] theorem after_nil (l : Location) : l.after [] = l := rfl

@[simp] theorem after_cons (l : Location) (c : Char) (text : List Char) :
    l.after (c :: text) = (l.next c).after text := rfl

theorem after_append (l : Location) (first second : List Char) :
    l.after (first ++ second) = (l.after first).after second := by
  simp [after, List.foldl_append]

/-- Earlier in the text. -/
def Before (l l' : Location) : Prop := l.line < l'.line ∨ l.line = l'.line ∧ l.column < l'.column

end Location

/-- By lines, and within a line by columns. -/
instance : LE Location where
  le l l' := l.line < l'.line ∨ l.line = l'.line ∧ l.column ≤ l'.column

namespace Location

theorem Before.trans {l l' l'' : Location} (first : l.Before l') (second : l'.Before l'') : l.Before l'' := by
  unfold Before at *
  omega

theorem Before.ne {l l' : Location} (before : l.Before l') : l ≠ l' := by
  rintro rfl
  unfold Before at before
  omega

theorem le_def {l l' : Location} : l ≤ l' ↔ l.line < l'.line ∨ l.line = l'.line ∧ l.column ≤ l'.column :=
  Iff.rfl

theorem le_refl (l : Location) : l ≤ l := .inr ⟨rfl, Nat.le_refl _⟩

theorem le_trans {l l' l'' : Location} (first : l ≤ l') (second : l' ≤ l'') : l ≤ l'' := by
  rw [le_def] at *
  omega

theorem Before.le {l l' : Location} (before : l.Before l') : l ≤ l' := by
  unfold Before at before
  rw [le_def]
  omega

/-- Every character takes up a place. -/
theorem before_next (l : Location) (c : Char) : l.Before (l.next c) := by
  unfold Before next
  split
  · exact .inl (Nat.lt_succ_self _)
  · exact .inr ⟨rfl, Nat.lt_succ_self _⟩

theorem after_eq_or_before (l : Location) (text : List Char) : l.after text = l ∨ l.Before (l.after text) := by
  induction text generalizing l with
  | nil => exact .inl rfl
  | cons c text ih =>
    rw [after_cons]
    rcases ih (l.next c) with same | later
    · rw [same]
      exact .inr (before_next l c)
    · exact .inr ((before_next l c).trans later)

/-- A text that is not empty ends behind where it begins. -/
theorem before_after {l : Location} {text : List Char} (some : text ≠ []) : l.Before (l.after text) := by
  cases text with
  | nil => exact absurd rfl some
  | cons c text =>
    rw [after_cons]
    rcases (l.next c).after_eq_or_before text with same | later
    · rw [same]
      exact before_next l c
    · exact (before_next l c).trans later

end Location

end ImpToC
