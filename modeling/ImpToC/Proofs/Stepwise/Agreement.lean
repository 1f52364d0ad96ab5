import ImpToC.Proofs.Grammar.Soundness
import ImpToC.Proofs.Stepwise.Progress

/-!
The machine does what the parser does. Called to read a construct, with whatever calls
are waiting, it arrives where the reading of the parser ends: with the value in hand and
the cursor on its last token, or with the error and the cursor where recovery has to
start. The calls that were waiting are still there, what was recorded has been added to
the errors, and the depth is what it was.
-/
namespace ImpToC.Parse.Machine

variable {α β : Type} {final : Token} {stack : List Frame} {errors : List Diagnostic} {depth : Nat}

/-- The state in which a reading leaves the machine. -/
def landing {input : List Token} (stack : List Frame) (errors : List Diagnostic) (depth : Nat)
    (ok : α → Control) (s : Scan α input) : State :=
  match s.val with
  | ⟨recorded, .parsed value last rest⟩ => ⟨ok value, stack, last :: rest, errors ++ recorded, depth⟩
  | ⟨recorded, .failed error resume⟩ => ⟨.failed error, stack, resume, errors ++ recorded, depth⟩

section Landings

variable {input : List Token} {ok : α → Control} {ok' : β → Control}

theorem landing_done {value : α} {last : Token} {rest : List Token} :
    landing stack errors depth ok (Scan.done value last rest) = ⟨ok value, stack, last :: rest, errors, depth⟩ := by
  simp [landing, Scan.done]

theorem landing_fail {error : Diagnostic} :
    landing stack errors depth ok (Scan.fail error input) = ⟨.failed error, stack, input, errors, depth⟩ := by
  simp [landing, Scan.fail]

theorem reaches_done {value : α} {last : Token} {rest : List Token} :
    Reaches final ⟨ok value, stack, last :: rest, errors, depth⟩
      (landing stack errors depth ok (Scan.done value last rest)) := by
  rw [landing_done]
  exact .refl

theorem reaches_fail {error : Diagnostic} :
    Reaches final ⟨.failed error, stack, input, errors, depth⟩
      (landing stack errors depth ok (Scan.fail error input)) := by
  rw [landing_fail]
  exact .refl

theorem landing_behind {s : Scan α input} {t : Token} :
    landing stack errors depth ok (s.behind t) = landing stack errors depth ok s := rfl

theorem landing_map {s : Scan β input} {f : β → α} :
    landing stack errors depth ok (s.map f) = landing stack errors depth (ok ∘ f) s := by
  obtain ⟨⟨recorded, outcome⟩, ending⟩ := s
  cases outcome <;> rfl

/-- Diagnostics that were recorded earlier may have been added already. -/
theorem landing_noting {s : Scan α input} {earlier : List Diagnostic} :
    landing stack errors depth ok (s.noting earlier) = landing stack (errors ++ earlier) depth ok s := by
  obtain ⟨⟨recorded, outcome⟩, ending⟩ := s
  cases outcome <;> simp [landing, Scan.noting]

theorem reaches_step {σ τ υ : State} (moved : step final σ = some τ) (run : Reaches final τ υ) :
    Reaches final σ υ := .head moved run

/-- A construct is read in two parts, one after the other. -/
theorem reaches_andThen {σ : State} {s : Scan α input}
    {next : (value : α) → (last : Token) → (rest : List Token) →
      rest.length < input.length → Scan β (last :: rest)}
    (first : Reaches final σ (landing stack errors depth ok s))
    (second : ∀ value last rest small errors, Reaches final ⟨ok value, stack, last :: rest, errors, depth⟩
      (landing stack errors depth ok' (next value last rest small))) :
    Reaches final σ (landing stack errors depth ok' (s.andThen next)) := by
  obtain ⟨⟨recorded, outcome⟩, ending⟩ := s
  cases outcome with
  | failed error resume => exact first
  | parsed value last rest =>
    have later := second value last rest (Scan.rest_length_lt ending) (errors ++ recorded)
    rw [← landing_noting] at later
    exact first.trans later

/-- A call that is no loop gives up with its part. -/
theorem failed_step {frame : Frame} {error : Diagnostic} {window : List Token} (plain : frame.loop? = none) :
    step final ⟨.failed error, frame :: stack, window, errors, depth⟩ =
      some ⟨.failed error, stack, window, errors, depth⟩ := by
  cases frame with
  | loop opened done => cases plain
  | _ => rfl

/-- The same as `reaches_andThen`, with the call `frame` waiting for the first part. -/
theorem reaches_call {σ : State} {s : Scan α input} {frame : Frame}
    {next : (value : α) → (last : Token) → (rest : List Token) →
      rest.length < input.length → Scan β (last :: rest)}
    (plain : frame.loop? = none)
    (first : Reaches final σ (landing (frame :: stack) errors depth ok s))
    (second : ∀ value last rest small errors, Reaches final ⟨ok value, frame :: stack, last :: rest, errors, depth⟩
      (landing stack errors depth ok' (next value last rest small))) :
    Reaches final σ (landing stack errors depth ok' (s.andThen next)) := by
  obtain ⟨⟨recorded, outcome⟩, ending⟩ := s
  cases outcome with
  | failed error resume => exact first.tail (failed_step plain)
  | parsed value last rest =>
    have later := second value last rest (Scan.rest_length_lt ending) (errors ++ recorded)
    rw [← landing_noting] at later
    exact first.trans later

/-- The call `frame` makes something of its part and is done. -/
theorem reaches_map {σ : State} {s : Scan α input} {frame : Frame} {f : α → β}
    (plain : frame.loop? = none)
    (first : Reaches final σ (landing (frame :: stack) errors depth ok s))
    (taken : ∀ value last rest errors, step final ⟨ok value, frame :: stack, last :: rest, errors, depth⟩ =
      some ⟨ok' (f value), stack, last :: rest, errors, depth⟩) :
    Reaches final σ (landing stack errors depth ok' (s.map f)) := by
  obtain ⟨⟨recorded, outcome⟩, ending⟩ := s
  cases outcome with
  | failed error resume => exact first.tail (failed_step plain)
  | parsed value last rest => exact first.tail (taken value last rest (errors ++ recorded))

/-- The same as `reaches_andThen`, with a first part that the machine passes over at once. -/
theorem reaches_after {σ : State} {s : Scan α input} {go : State → α → Token → List Token → State}
    {next : (value : α) → (last : Token) → (rest : List Token) →
      rest.length < input.length → Scan β (last :: rest)}
    (second : ∀ value last rest small errors, Reaches final (go { σ with errors := errors } value last rest)
      (landing σ.stack errors σ.depth ok' (next value last rest small))) :
    Reaches final (σ.after s go) (landing σ.stack σ.errors σ.depth ok' (s.andThen next)) := by
  obtain ⟨⟨recorded, outcome⟩, ending⟩ := s
  cases outcome with
  | failed error resume => exact .refl
  | parsed value last rest =>
    have later := second value last rest (Scan.rest_length_lt ending) (σ.errors ++ recorded)
    rw [← landing_noting] at later
    exact later

/-- A loop goes round again with a statement that was read, and from where recovery ends
after one that was not. -/
theorem reaches_orElse {σ : State} {s : Scan Stmt input} {opened : Option Location} {done : List Stmt} {depth' : Nat}
    {next : (value : Stmt) → (last : Token) → (rest : List Token) →
      rest.length < input.length → Scan β (last :: rest)}
    {instead : (resume : List Token) → resume <:+ input → Scan β input}
    (first : Reaches final σ (landing (.loop opened done :: stack) errors depth .stmt s))
    (second : ∀ value last rest small errors,
      Reaches final ⟨.loop opened (done ++ [value]), stack, rest, errors, depth⟩
        (landing stack errors depth' ok' (next value last rest small)))
    (recovered : ∀ resume ending errors,
      Reaches final ⟨.loop opened done, stack, recover depth resume, errors, depth⟩
        (landing stack errors depth' ok' (instead resume ending))) :
    Reaches final σ (landing stack errors depth' ok' (s.orElse next instead)) := by
  obtain ⟨⟨recorded, outcome⟩, ending⟩ := s
  cases outcome with
  | failed error resume =>
    have later := recovered resume ending (errors ++ (recorded ++ [error]))
    rw [← landing_noting, ← List.append_assoc] at later
    exact first.trans (reaches_step rfl later)
  | parsed value last rest =>
    have later := second value last rest (Scan.rest_length_lt ending) (errors ++ recorded)
    rw [← landing_noting] at later
    exact first.trans (reaches_step rfl later)

theorem reaches_give {σ : State} {s : Scan α input} :
    Reaches final (σ.after s fun σ value last rest => σ.give (ok value) (last :: rest))
      (landing σ.stack σ.errors σ.depth ok s) := by
  obtain ⟨⟨recorded, outcome⟩, ending⟩ := s
  cases outcome <;> exact .refl

end Landings

/-- What `statement_reaches` needs to know about expressions. -/
def ExpressionsReach (final : Token) (depth bound : Nat) : Prop :=
  ∀ input stack errors, input.length < bound →
    Reaches final ⟨.operand, .climbing .lowest :: stack, input, errors, depth⟩
      (landing stack errors depth .expr (expression final depth .lowest input))

/-- What `statement_reaches` needs to know about blocks. -/
def BlocksReach (final : Token) (depth bound : Nat) : Prop :=
  ∀ brace rest stack errors, rest.length < bound →
    Reaches final ⟨.loop (some brace.location) [], stack, rest, errors, depth + 1⟩
      (landing stack errors depth .block (block final depth brace rest))

section Arguments

variable {level : Level} {callee : Expr} {place : Location} {bound : Nat}

theorem items_reaches (input : List Token) (small : input.length < bound) (done : List Expr)
    (stack : List Frame) (errors : List Diagnostic) (exprs : ExpressionsReach final depth bound) :
    Reaches final ⟨.operand, .climbing .lowest :: .argument level callee place done :: stack, input, errors, depth⟩
      (landing stack errors depth (fun es => .climb level (.call callee (done ++ es) place))
        (items final bound (fun input _ => expression final depth .lowest input) input small)) := by
  rw [items]
  refine reaches_call rfl (exprs input _ errors small) ?_
  intro e last rest shorter errors
  refine reaches_step rfl ?_
  cases rest with
  | nil => exact reaches_fail
  | cons t rest =>
    dsimp only
    by_cases comma : t.kind = .symbol .comma
    · rw [if_pos comma, if_pos comma, landing_behind, landing_behind, landing_map]
      have shrinks : rest.length < input.length := Nat.lt_of_succ_lt shorter
      have others := items_reaches rest (Nat.lt_trans shrinks small) (done ++ [e]) stack errors exprs
      simp only [List.append_assoc, List.singleton_append] at others
      exact others
    · rw [if_neg comma, if_neg comma]
      by_cases closes : t.kind = .symbol .rightParen
      · rw [if_pos closes, if_pos closes, landing_behind]
        exact reaches_done
      · rw [if_neg closes, if_neg closes]
        exact reaches_fail
termination_by input.length

theorem delimited_reaches {t last : Token} {left : Expr} (binds : level < levelOf t.kind)
    (calls : Operator.ofKind? t.kind = none) (tail : List Token) (stack : List Frame) (errors : List Diagnostic)
    (exprs : ExpressionsReach final depth (tail.length + 1)) :
    Reaches final ⟨.climb level left, stack, last :: t :: tail, errors, depth⟩
      (landing stack errors depth (fun es => .climb level (.call left es t.location))
        (delimited final t tail fun input _ => expression final depth .lowest input)) := by
  refine reaches_step rfl ?_
  unfold State.climb delimited
  dsimp only
  rw [if_pos binds, calls]
  cases tail with
  | nil => exact items_reaches [] (Nat.lt_succ_self _) [] stack errors exprs
  | cons u rest =>
    dsimp only
    by_cases closes : u.kind = .symbol .rightParen
    · rw [if_pos closes, if_pos closes, landing_behind]
      exact reaches_done
    · rw [if_neg closes, if_neg closes, landing_behind]
      exact items_reaches (u :: rest) (Nat.lt_succ_self _) [] stack errors exprs

end Arguments

section Statements

variable {t : Token} {tail : List Token}

theorem statement_reaches_var (keyword : t.kind = .keyword .var)
    (exprs : ExpressionsReach final depth (t :: tail).length) :
    Reaches final ⟨.statement, stack, t :: tail, errors, depth⟩
      (landing stack errors depth .stmt (statement final depth (t :: tail))) := by
  refine reaches_step rfl ?_
  rw [statement.eq_def]
  simp only [State.statement, keyword]
  refine reaches_after ?_
  intro name last rest small errors
  cases rest with
  | nil => exact reaches_fail
  | cons next rest =>
    dsimp only
    by_cases ends : next.kind = .symbol .semicolon
    · rw [if_pos ends, if_pos ends, landing_behind]
      exact reaches_done
    · rw [if_neg ends, if_neg ends]
      by_cases assigns : next.kind = .symbol .assign
      · rw [if_pos assigns, if_pos assigns, landing_behind]
        refine reaches_call rfl (exprs rest _ errors (Nat.lt_of_succ_lt small)) ?_
        intro value last rest _ errors
        exact reaches_step rfl reaches_give
      · rw [if_neg assigns, if_neg assigns]
        exact reaches_fail

theorem statement_reaches_print (keyword : t.kind = .keyword .print)
    (exprs : ExpressionsReach final depth (t :: tail).length) :
    Reaches final ⟨.statement, stack, t :: tail, errors, depth⟩
      (landing stack errors depth .stmt (statement final depth (t :: tail))) := by
  refine reaches_step rfl ?_
  rw [statement.eq_def]
  simp only [State.statement, keyword]
  refine reaches_after ?_
  intro _ last rest small errors
  refine reaches_call rfl (exprs rest _ errors small) ?_
  intro value last rest _ errors
  refine reaches_step rfl (reaches_after ?_)
  intro _ last rest _ errors
  exact reaches_give

theorem statement_reaches_cond (keyword : t.kind = .keyword .cond)
    (exprs : ExpressionsReach final depth (t :: tail).length)
    (blocks : BlocksReach final depth (t :: tail).length) :
    Reaches final ⟨.statement, stack, t :: tail, errors, depth⟩
      (landing stack errors depth .stmt (statement final depth (t :: tail))) := by
  refine reaches_step rfl ?_
  rw [statement.eq_def]
  simp only [State.statement, keyword]
  refine reaches_call rfl (exprs tail _ errors (Nat.lt_succ_self _)) ?_
  intro condition last rest small₁ errors
  refine reaches_step rfl (reaches_after ?_)
  intro _ brace rest small₂ errors
  refine reaches_call rfl (blocks brace rest _ errors (by simp at small₁ small₂ ⊢; omega)) ?_
  intro consequence last rest small₃ errors
  refine reaches_step rfl ?_
  cases rest with
  | nil => exact reaches_done
  | cons next rest =>
    dsimp only
    by_cases otherwise : next.kind = .ident ∧ next.literal = "else"
    · rw [if_pos otherwise, if_pos otherwise, landing_behind]
      refine reaches_after ?_
      intro _ brace rest small₄ errors
      have second := blocks brace rest (.body (.alternative condition consequence t.location) :: stack) errors
        (by simp at small₁ small₂ small₃ small₄ ⊢; omega)
      exact reaches_map rfl second fun _ _ _ _ => rfl
    · rw [if_neg otherwise, if_neg otherwise]
      exact reaches_done

theorem statement_reaches_foreign (keyword : t.kind = .keyword .foreign) :
    Reaches final ⟨.statement, stack, t :: tail, errors, depth⟩
      (landing stack errors depth .stmt (statement final depth (t :: tail))) := by
  refine reaches_step rfl ?_
  rw [statement.eq_def]
  simp only [State.statement, keyword]
  refine reaches_after ?_
  intro name last rest small errors
  cases rest with
  | nil => exact reaches_fail
  | cons next rest =>
    dsimp only
    by_cases ends : next.kind = .symbol .semicolon
    · rw [if_pos ends, if_pos ends, landing_behind]
      exact reaches_done
    · rw [if_neg ends, if_neg ends]
      exact reaches_fail

theorem statement_reaches_ret (keyword : t.kind = .keyword .ret)
    (exprs : ExpressionsReach final depth (t :: tail).length) :
    Reaches final ⟨.statement, stack, t :: tail, errors, depth⟩
      (landing stack errors depth .stmt (statement final depth (t :: tail))) := by
  refine reaches_step rfl ?_
  rw [statement.eq_def]
  simp only [State.statement, keyword]
  cases tail with
  | nil => exact reaches_done
  | cons next rest =>
    dsimp only
    by_cases ends : next.kind = .symbol .semicolon
    · rw [if_pos ends, if_pos ends, landing_behind]
      exact reaches_done
    · rw [if_neg ends, if_neg ends]
      by_cases closes : next.kind = .symbol .rightBrace
      · rw [if_pos closes, if_pos closes]
        exact reaches_done
      · rw [if_neg closes, if_neg closes]
        refine reaches_call rfl (exprs (next :: rest) _ errors (Nat.lt_succ_self _)) ?_
        intro value last rest _ errors
        exact reaches_step rfl reaches_give

theorem statement_reaches_func {next : Token} {rest : List Token} (keyword : t.kind = .keyword .func)
    (named : next.kind = .ident) (blocks : BlocksReach final depth (t :: next :: rest).length) :
    Reaches final ⟨.statement, stack, t :: next :: rest, errors, depth⟩
      (landing stack errors depth .stmt (statement final depth (t :: next :: rest))) := by
  refine reaches_step rfl ?_
  rw [statement.eq_def]
  simp only [State.statement, keyword, named, and_self, ↓reduceIte]
  rw [landing_behind]
  refine reaches_after ?_
  intro params brace rest small errors
  exact reaches_map rfl (blocks brace rest _ errors (Nat.lt_succ_of_lt small)) fun _ _ _ _ => rfl

theorem statement_reaches_assign {next : Token} {rest : List Token} (named : t.kind = .ident)
    (assigns : next.kind = .symbol .assign) (exprs : ExpressionsReach final depth (t :: next :: rest).length) :
    Reaches final ⟨.statement, stack, t :: next :: rest, errors, depth⟩
      (landing stack errors depth .stmt (statement final depth (t :: next :: rest))) := by
  refine reaches_step rfl ?_
  rw [statement.eq_def]
  simp only [State.statement, assigns, named, reduceCtorEq, and_self, ↓reduceIte]
  rw [landing_behind]
  refine reaches_call rfl (exprs rest _ errors (Nat.lt_succ_of_lt (Nat.lt_succ_self _))) ?_
  intro value last rest _ errors
  exact reaches_step rfl reaches_give

theorem State.statement_bare (bare : Bare t tail) :
    State.statement final ⟨.statement, stack, t :: tail, errors, depth⟩ =
      ⟨.operand, .climbing .lowest :: .ending .bare t.location :: stack, t :: tail, errors, depth⟩ := by
  obtain ⟨single, pair⟩ := bare
  simp only [List.mem_cons, List.not_mem_nil, or_false, not_or] at single
  obtain ⟨noVar, noPrint, noCond, noForeign, noRet, noBrace⟩ := single
  unfold State.statement
  dsimp only
  split
  · exact absurd ‹_› noVar
  · exact absurd ‹_› noPrint
  · exact absurd ‹_› noCond
  · exact absurd ‹_› noForeign
  · exact absurd ‹_› noRet
  · exact absurd ‹_› noBrace
  · cases tail with
    | nil => rfl
    | cons next rest =>
      obtain ⟨defines, assigns⟩ := pair next rfl
      dsimp only
      rw [if_neg defines, if_neg assigns]
      rfl

end Statements

mutual

theorem expression_reaches (depth : Nat) (level : Level) (input : List Token) (stack : List Frame)
    (errors : List Diagnostic) :
    Reaches final ⟨.operand, .climbing level :: stack, input, errors, depth⟩
      (landing stack errors depth .expr (expression final depth level input)) := by
  rw [expression]
  refine reaches_call rfl (operand_reaches depth input (.climbing level :: stack) errors) ?_
  intro left last rest small errors
  exact reaches_step rfl (climb_reaches depth level left last rest stack errors)
termination_by 8 * input.length + 2
decreasing_by all_goals omega

theorem operand_reaches (depth : Nat) (input : List Token) (stack : List Frame) (errors : List Diagnostic) :
    Reaches final ⟨.operand, stack, input, errors, depth⟩
      (landing stack errors depth .expr (operand final depth input)) := by
  refine reaches_step rfl ?_
  rw [operand.eq_def]
  cases input with
  | nil => exact reaches_fail
  | cons t tail =>
    -- The machine and the parser look at the same kind, which is taken apart for both at once.
    cases kind : t.kind with
    | ident | string =>
      simp only [State.operand, kind]
      exact reaches_done
    | int =>
      simp only [State.operand, kind]
      cases integer? t.literal with
      | some value => exact reaches_done
      | none => exact reaches_fail
    | symbol s =>
      cases s with
      | leftParen =>
        simp only [State.operand, kind]
        refine reaches_call rfl (expression_reaches depth .lowest tail (.group :: stack) errors) ?_
        intro inner last rest _ errors
        rw [landing_map]
        exact reaches_step rfl reaches_give
      | _ =>
        simp only [State.operand, kind]
        exact reaches_fail
    | keyword k =>
      cases k with
      | func =>
        simp only [State.operand, kind]
        refine reaches_after ?_
        intro params brace rest small errors
        exact reaches_map rfl (block_reaches depth brace rest (.literal params t.location :: stack) errors)
          fun _ _ _ _ => rfl
      | _ =>
        simp only [State.operand, kind]
        exact reaches_fail
    | illegal | endOfFile =>
      simp only [State.operand, kind]
      exact reaches_fail
termination_by 8 * input.length + 1
decreasing_by
  all_goals subst_vars
  all_goals simp only [List.length_cons] at *
  all_goals omega

theorem climb_reaches (depth : Nat) (level : Level) (left : Expr) (last : Token) (input : List Token)
    (stack : List Frame) (errors : List Diagnostic) :
    Reaches final ⟨.climb level left, stack, last :: input, errors, depth⟩
      (landing stack errors depth .expr (climb final depth level left last input)) := by
  rw [climb.eq_def]
  cases input with
  | nil => exact reaches_step rfl reaches_done
  | cons t tail =>
    dsimp only
    by_cases binds : level < levelOf t.kind
    · rw [if_pos binds]
      cases found : Operator.ofKind? t.kind with
      | some op =>
        rw [landing_behind]
        have called : step final ⟨.climb level left, stack, last :: t :: tail, errors, depth⟩ =
            some ⟨.operand, .climbing op.level :: .right level op left t.location :: stack, tail, errors, depth⟩ := by
          simp only [step, State.climb, binds, found, ↓reduceIte]
          rfl
        refine reaches_step called ?_
        refine reaches_call rfl
          (expression_reaches depth op.level tail (.right level op left t.location :: stack) errors) ?_
        intro right last rest small errors
        exact reaches_step rfl (climb_reaches depth level (.binary op left right t.location) last rest stack errors)
      | none =>
        rw [landing_behind]
        have exprs : ExpressionsReach final depth (tail.length + 1) := fun part stack errors small =>
          expression_reaches depth .lowest part stack errors
        refine reaches_andThen (delimited_reaches binds found tail stack errors exprs) ?_
        intro args last rest small errors
        exact climb_reaches depth level (.call left args t.location) last rest stack errors
    · rw [if_neg binds]
      exact reaches_step (congrArg some (if_neg binds)) reaches_done
termination_by 8 * input.length
decreasing_by
  all_goals subst_vars
  all_goals simp only [List.length_cons] at *
  all_goals omega

theorem block_reaches (depth : Nat) (brace : Token) (rest : List Token) (stack : List Frame)
    (errors : List Diagnostic) :
    Reaches final ⟨.loop (some brace.location) [], stack, rest, errors, depth + 1⟩
      (landing stack errors depth .block (block final depth brace rest)) := by
  rw [block, landing_map]
  exact statements_reaches depth brace.location rest [] stack errors
termination_by 8 * rest.length + 6
decreasing_by all_goals omega

theorem statements_reaches (depth : Nat) (opened : Location) (input : List Token) (done : List Stmt)
    (stack : List Frame) (errors : List Diagnostic) :
    Reaches final ⟨.loop (some opened) done, stack, input, errors, depth + 1⟩
      (landing stack errors depth (fun ss => .block (.mk (done ++ ss) opened))
        (statements final (depth + 1) opened input)) := by
  rw [statements.eq_def]
  cases input with
  | nil => exact reaches_step rfl reaches_fail
  | cons t tail =>
    dsimp only
    by_cases closes : t.kind = .symbol .rightBrace
    · -- The depth goes down here, and the brace stays ahead as the last token of the block.
      rw [dif_pos closes, landing_done, List.append_nil]
      exact reaches_step (if_pos closes) .refl
    · rw [dif_neg closes]
      refine reaches_step (if_neg closes) ?_
      refine reaches_orElse (statement_reaches (depth + 1) t tail (.loop (some opened) done :: stack) errors) ?_ ?_
      · intro s last rest small errors
        rw [landing_behind, landing_map]
        have others := statements_reaches depth opened rest (done ++ [s]) stack errors
        simp only [List.append_assoc, List.singleton_append] at others
        exact others
      · -- Recovery is called with the block still open, so it may stop at the closing brace.
        intro resume ending errors
        have shorter := recover_of_suffix_length_lt (depth + 1) t tail resume ending fun holds => closes holds.1
        exact statements_reaches depth opened (recover (depth + 1) resume) done stack errors
termination_by 8 * input.length + 5
decreasing_by
  all_goals subst_vars
  all_goals simp only [List.length_cons] at *
  all_goals omega

theorem statement_reaches (depth : Nat) (t : Token) (tail : List Token) (stack : List Frame)
    (errors : List Diagnostic) :
    Reaches final ⟨.statement, stack, t :: tail, errors, depth⟩
      (landing stack errors depth .stmt (statement final depth (t :: tail))) := by
  have exprs : ExpressionsReach final depth (t :: tail).length := fun part stack errors small =>
    expression_reaches depth .lowest part stack errors
  have blocks : BlocksReach final depth (t :: tail).length := fun brace part stack errors small =>
    block_reaches depth brace part stack errors
  cases begins t tail with
  | var keyword => exact statement_reaches_var keyword exprs
  | print keyword => exact statement_reaches_print keyword exprs
  | cond keyword => exact statement_reaches_cond keyword exprs blocks
  | foreign keyword => exact statement_reaches_foreign keyword
  | ret keyword => exact statement_reaches_ret keyword exprs
  | block opens =>
    refine reaches_step rfl ?_
    rw [statement.eq_def]
    simp only [State.statement, opens]
    exact reaches_map rfl (blocks t tail _ errors (Nat.lt_succ_self _)) fun _ _ _ _ => rfl
  | func keyword named => exact statement_reaches_func keyword named blocks
  | assign named assigns => exact statement_reaches_assign named assigns exprs
  | bare other =>
    refine reaches_step (congrArg some (State.statement_bare other)) ?_
    rw [statement_bare other, bareExpression]
    refine reaches_call rfl (expression_reaches depth .lowest (t :: tail) _ errors) ?_
    intro value last rest _ errors
    exact reaches_step rfl reaches_give
termination_by 8 * (tail.length + 1) + 4
decreasing_by
  all_goals subst_vars
  all_goals simp only [List.length_cons] at *
  all_goals omega

end

/-- The loop over a program arrives at the end of the text with what the parser returns. -/
theorem program_reaches (input : List Token) (done : List Stmt) (errors : List Diagnostic) :
    Reaches final ⟨.loop none done, [], input, errors, 0⟩
      ⟨.loop none (done ++ (program final input).1), [], [], errors ++ (program final input).2, 0⟩ := by
  cases input with
  | nil =>
    rw [program_nil, List.append_nil, List.append_nil]
    exact .refl
  | cons t tail =>
    refine reaches_step rfl ?_
    have run : Reaches final _ _ := statement_reaches 0 t tail [.loop none done] errors
    unfold landing at run
    rcases read : (statement final 0 (t :: tail)).val with ⟨recorded, ⟨s, last, rest⟩ | ⟨error, resume⟩⟩
    · rw [read] at run
      have shorter := Scan.rest_length_lt (Scan.suffix_of_parsed read)
      have others := program_reaches rest (done ++ [s]) (errors ++ recorded)
      rw [program_of_parsed read]
      simp only [List.append_assoc, List.singleton_append] at others
      exact run.trans (reaches_step rfl others)
    · rw [read] at run
      have shorter := recover_of_suffix_length_lt 0 t tail resume (Scan.suffix_of_failed read) (by simp)
      have others := program_reaches (recover 0 resume) done (errors ++ recorded ++ [error])
      rw [program_of_failed read]
      dsimp only
      rw [List.append_cons, ← List.append_assoc, ← List.append_assoc]
      exact run.trans (reaches_step rfl others)
termination_by input.length
decreasing_by
  all_goals subst_vars
  all_goals exact shorter

/-- A state that the parse of `source` comes through. -/
def Visits (source : String) (τ : State) : Prop :=
  Reaches (Tokens.ofText source).final (start (Tokens.ofText source).list) τ

/-- There is only one way to go on, so a run that ends has all others on its way. -/
theorem reaches_halt {σ τ υ : State} (run : Reaches final σ υ) (halts : step final υ = none)
    (other : Reaches final σ τ) : Reaches final τ υ := by
  have single : Relator.RightUnique fun σ τ => step final σ = some τ :=
    fun _ _ _ first second => Option.some.inj (first.symm.trans second)
  rcases Relation.ReflTransGen.total_of_right_unique single run other with later | earlier
  · rcases later.cases_head with rfl | ⟨_, moved, _⟩
    · exact .refl
    · rw [halts] at moved
      cases moved
  · exact earlier

/-- Inside a block the machine goes on as the parser does at the depth that it counts. -/
theorem Balanced.block_reaches {σ : State} {l : Location} {done : List Stmt} (balanced : Balanced σ)
    (control : σ.control = .loop (some l) done) :
    0 < σ.depth ∧ Reaches final σ (landing σ.stack σ.errors (σ.depth - 1)
      (fun ss => .block (.mk (done ++ ss) l)) (statements final σ.depth l σ.window)) := by
  obtain ⟨_, stack, window, errors, depth⟩ := σ
  obtain rfl : _ = Control.loop (some l) done := control
  have counted : depth = _ := balanced.depth_eq_openBlocks
  simp only [State.openBlocks, State.loops, Control.loops, List.singleton_append, List.countP_cons_of_pos,
    Option.isSome_some] at counted
  subst counted
  exact ⟨Nat.succ_pos _, statements_reaches _ l window done stack errors⟩

/-- Whatever the text, the parser comes to an end, at the end of the text and with no
block open, and what it has then is the result of reading. All the way the depth is the
number of blocks being read, so it is zero while the innermost loop is that of the
program; the loop of a block does what the parser does at that depth; and whenever a loop
comes round, the cursor has moved on. -/
theorem read_halts (source : String) :
    (∃ σ, Visits source σ ∧ step (Tokens.ofText source).final σ = none ∧
      σ.control = .loop none (Program.read source).1.statements ∧ σ.errors = (Program.read source).2 ∧
      (σ.current (Tokens.ofText source).final).kind = .endOfFile ∧ σ.depth = 0 ∧
      ∀ τ, Visits source τ → Reaches (Tokens.ofText source).final τ σ) ∧
    ∀ τ, Visits source τ →
      τ.depth = τ.openBlocks ∧
      (τ.loops.head? = some none → τ.depth = 0) ∧
      (∀ l done, τ.control = .loop (some l) done → 0 < τ.depth ∧
        Reaches (Tokens.ofText source).final τ (landing τ.stack τ.errors (τ.depth - 1)
          (fun ss => .block (.mk (done ++ ss) l))
          (statements (Tokens.ofText source).final τ.depth l τ.window))) ∧
      ∀ υ opened done done', Advances (Tokens.ofText source).final τ υ →
        τ.control = .loop opened done → υ.control = .loop opened done' → υ.stack = τ.stack →
        υ.window <:+ τ.window ∧ υ.window.length < τ.window.length := by
  constructor
  · have run : Visits source _ := program_reaches (Tokens.ofText source).list [] []
    refine ⟨_, run, rfl, rfl, rfl, Tokens.scan_final_kind _ _, rfl, ?_⟩
    intro τ visited
    exact reaches_halt run rfl visited
  · intro τ visited
    have balanced := (start_balanced _).reaches visited
    refine ⟨balanced.depth_eq_openBlocks, balanced.depth_eq_zero, fun _ _ => balanced.block_reaches, ?_⟩
    intro υ opened done done' run control control' same
    exact balanced.loop_moves run control control' same

/-- The loop of a block comes round with nothing read, past the token that is an error. -/
theorem read_halts_stray_parenthesis :
    ∃ source, source = "{ ) }" ∧ ∃ τ υ l, Visits source τ ∧ Advances (Tokens.ofText source).final τ υ ∧
      τ.control = .loop (some l) [] ∧ υ.control = .loop (some l) [] ∧ υ.stack = τ.stack ∧
      τ.depth = τ.openBlocks ∧ υ.window.length < τ.window.length := by
  refine ⟨_, rfl, ?_⟩
  generalize given : "{ ) }" = source
  have tokens : Tokens.ofText source = ⟨[⟨.symbol .leftBrace, r"{", ⟨1, 1⟩⟩, ⟨.symbol .rightParen, ")", ⟨1, 3⟩⟩,
      ⟨.symbol .rightBrace, r"}", ⟨1, 5⟩⟩], ⟨.endOfFile, "", ⟨1, 6⟩⟩⟩ := by
    rw [← given]
    decide +kernel
  have inside : Visits source ⟨.loop (some ⟨1, 1⟩) [], [.body .nested, .loop none []],
      [⟨.symbol .rightParen, ")", ⟨1, 3⟩⟩, ⟨.symbol .rightBrace, r"}", ⟨1, 5⟩⟩], [], 1⟩ := by
    unfold Visits
    rw [tokens]
    exact .head rfl (.single rfl)
  have again : Advances (Tokens.ofText source).final ⟨.loop (some ⟨1, 1⟩) [], [.body .nested, .loop none []],
      [⟨.symbol .rightParen, ")", ⟨1, 3⟩⟩, ⟨.symbol .rightBrace, r"}", ⟨1, 5⟩⟩], [], 1⟩
      ⟨.loop (some ⟨1, 1⟩) [], [.body .nested, .loop none []], [⟨.symbol .rightBrace, r"}", ⟨1, 5⟩⟩],
        [⟨.noOperand (.symbol .rightParen), ⟨1, 3⟩⟩], 1⟩ := by
    rw [tokens]
    exact .head rfl (.head rfl (.head rfl (.head rfl (.head rfl (.single rfl)))))
  obtain ⟨counted, _, _, moves⟩ := (read_halts source).2 _ inside
  exact ⟨_, _, _, inside, again, rfl, rfl, rfl, counted, (moves _ _ _ _ again rfl rfl rfl).2⟩

end ImpToC.Parse.Machine
