import ImpToC.Parse.Scan

/-!
Where reading goes on after a statement that was given up: just past a
semicolon, at a keyword that opens a statement, at the brace that ends the
enclosing block, or at the end.
-/
namespace ImpToC.Parse

/-- Whether the next token opens a statement. -/
def opensStatement : List Token → Bool
  | [] => false
  | t :: _ => t.kind.startsStatement

/-- The tokens to go on with, `depth` blocks being open. The current token
itself is passed over even if it opens a statement. -/
def recover (depth : Nat) : List Token → List Token
  | [] => []
  | t :: rest =>
    if t.kind = .symbol .rightBrace ∧ 0 < depth then t :: rest
    else if t.kind = .symbol .semicolon then rest
    else if opensStatement rest then rest
    else recover depth rest

theorem recover_suffix (depth : Nat) (ts : List Token) : recover depth ts <:+ ts := by
  fun_induction recover depth ts with
  | case1 => exact List.suffix_refl _
  | case2 => exact List.suffix_refl _
  | case3 => exact List.suffix_cons _ _
  | case4 => exact List.suffix_cons _ _
  | case5 t rest _ _ _ ih => exact ih.trans (List.suffix_cons t rest)

/-- Recovery uses up a token unless it stands at the brace that ends a block. -/
theorem recover_length_lt (depth : Nat) (t : Token) (rest : List Token)
    (moves : ¬ (t.kind = .symbol .rightBrace ∧ 0 < depth)) :
    (recover depth (t :: rest)).length < (t :: rest).length := by
  rw [recover, if_neg moves]
  split
  · exact Nat.lt_succ_self _
  · split
    · exact Nat.lt_succ_self _
    · exact Nat.lt_succ_of_le (recover_suffix depth rest).length_le

/-- From anywhere in the input, recovery leaves less than the input. -/
theorem recover_of_suffix_length_lt (depth : Nat) (t : Token) (rest resume : List Token)
    (ending : resume <:+ t :: rest) (moves : ¬ (t.kind = .symbol .rightBrace ∧ 0 < depth)) :
    (recover depth resume).length < (t :: rest).length := by
  rcases List.suffix_cons_iff.mp ending with rfl | shorter
  · exact recover_length_lt depth t rest moves
  · exact Nat.lt_succ_of_le ((recover_suffix depth resume).trans shorter).length_le

end ImpToC.Parse
