import ImpToC.Diagnostic

/-!
Readings of one construct from the front of a token list. A reading tells
which token it used last and what follows, or where recovery has to start, and
it carries the proof that both lie within its input. That proof is what lets
the grammar recur without a bound of its own.
-/
namespace ImpToC.Parse

/-- `parsed` names the last token used and the tokens after it. `failed` gives
the tokens from the one that was current when the reading stopped. -/
inductive Outcome (α : Type) where
  | parsed (value : α) (last : Token) (rest : List Token)
  | failed (error : Diagnostic) (resume : List Token)

/-- An outcome, and the diagnostics of statements already given up inside it. -/
structure Reading (α : Type) where
  recorded : List Diagnostic
  outcome : Outcome α

/-- The tokens that a reading speaks of are the end of its input. -/
def Reading.Within {α : Type} (input : List Token) (r : Reading α) : Prop :=
  match r.outcome with
  | .parsed _ last rest => last :: rest <:+ input
  | .failed _ resume => resume <:+ input

/-- A reading of the front of `input`. -/
def Scan (α : Type) (input : List Token) : Type :=
  { r : Reading α // r.Within input }

namespace Scan

variable {α β : Type} {input : List Token}

/-- The current token is the last one of the construct. -/
def done (value : α) (last : Token) (rest : List Token) : Scan α (last :: rest) :=
  ⟨⟨[], .parsed value last rest⟩, List.suffix_refl _⟩

/-- Stop at the front of the input. -/
def fail (error : Diagnostic) (input : List Token) : Scan α input :=
  ⟨⟨[], .failed error input⟩, List.suffix_refl _⟩

/-- A reading of an end of the input is one of the input. -/
def within {part : List Token} (s : Scan α part) (ending : part <:+ input) : Scan α input :=
  ⟨s.val, by
    obtain ⟨⟨_, outcome⟩, holds⟩ := s
    cases outcome <;> exact List.IsSuffix.trans holds ending⟩

/-- Read on behind the token `t`. -/
def behind (t : Token) (s : Scan α input) : Scan α (t :: input) :=
  s.within (List.suffix_cons t input)

/-- Put earlier diagnostics in front. -/
def noting (earlier : List Diagnostic) (s : Scan α input) : Scan α input :=
  ⟨⟨earlier ++ s.val.recorded, s.val.outcome⟩, s.property⟩

def map (f : α → β) (s : Scan α input) : Scan β input :=
  match s with
  | ⟨⟨recorded, .parsed value last rest⟩, holds⟩ => ⟨⟨recorded, .parsed (f value) last rest⟩, holds⟩
  | ⟨⟨recorded, .failed error resume⟩, holds⟩ => ⟨⟨recorded, .failed error resume⟩, holds⟩

theorem rest_length_lt {last : Token} {rest : List Token} (ending : last :: rest <:+ input) :
    rest.length < input.length :=
  Nat.lt_of_lt_of_le (Nat.lt_succ_self _) ending.length_le

/-- Go on with what follows, the last token used being the current one. -/
def andThen (s : Scan α input)
    (next : (value : α) → (last : Token) → (rest : List Token) →
      rest.length < input.length → Scan β (last :: rest)) : Scan β input :=
  match s with
  | ⟨⟨recorded, .parsed value last rest⟩, ending⟩ =>
    ((next value last rest (rest_length_lt ending)).within ending).noting recorded
  | ⟨⟨recorded, .failed error resume⟩, ending⟩ => ⟨⟨recorded, .failed error resume⟩, ending⟩

/-- As `andThen`, but a failure is recorded and `instead` goes on from where it
stopped. -/
def orElse (s : Scan α input)
    (next : (value : α) → (last : Token) → (rest : List Token) →
      rest.length < input.length → Scan β (last :: rest))
    (instead : (resume : List Token) → resume <:+ input → Scan β input) : Scan β input :=
  match s with
  | ⟨⟨recorded, .parsed value last rest⟩, ending⟩ =>
    ((next value last rest (rest_length_lt ending)).within ending).noting recorded
  | ⟨⟨recorded, .failed error resume⟩, ending⟩ =>
    (instead resume ending).noting (recorded ++ [error])

end Scan

end ImpToC.Parse
