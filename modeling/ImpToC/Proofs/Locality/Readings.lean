import ImpToC.Proofs.Grammar.Forms
import ImpToC.Proofs.Locality.Tracking

/-!
The whole grammar reads moved tokens as it reads the old ones. The proofs go along the
grammar, and what each rule adds is only where its parts end.
-/
namespace ImpToC.Parse.Transfer

variable (m : Transfer)

/-- What `statement_tracks` needs to know about expressions. -/
def ExpressionsTrack (depth bound : Nat) : Prop :=
  ∀ input, input.length < bound → m.Safe input →
    m.Tracks (Expr.relocate m.place) m.Safe (expression m.final depth .lowest input)
      (expression m.final' depth .lowest (m.carry input))

/-- What `statement_tracks` needs to know about blocks. -/
def BlocksTrack (depth bound : Nat) : Prop :=
  ∀ brace rest, rest.length < bound → m.braced → m.Safe rest →
    m.Tracks (Block.relocate m.place) m.Safe (block m.final depth brace rest)
      (block m.final' depth (brace.relocate m.place) (m.carry rest))

section Statements

variable {m} {depth : Nat} {t : Token} {tail : List Token}

/-- An expression on its own stays one. The token behind its first one decides that, and no other
comes there: at the end of the moved tokens there is a semicolon, or nothing follows them. -/
theorem bare_carry (bare : Bare t tail) (safe : m.Safe (t :: tail)) :
    Bare (t.relocate m.place) (m.carry tail) := by
  refine ⟨bare.1, fun next first => ?_⟩
  cases tail with
  | cons u tail =>
    obtain rfl : u.relocate m.place = next := Option.some.inj first
    exact bare.2 u rfl
  | nil =>
    rcases safe.bounded with ⟨none, _⟩ | ended
    · simp [carry, none] at first
    · rcases ended_cons.mp ended with ⟨_, semicolon⟩ | later
      · simp [semicolon]
      · exact absurd later not_ended_nil

/-- A declaration, which may end right behind its name or go on with an initial value. -/
theorem statement_tracks_var (keyword : t.kind = .keyword .var) (safe : m.Safe tail)
    (exprs : m.ExpressionsTrack depth (t :: tail).length) :
    m.Tracks (Stmt.relocate m.place) m.Used (statement m.final depth (t :: tail))
      (statement m.final' depth (m.carry (t :: tail))) := by
  rw [statement.eq_def m.final, statement.eq_def m.final']
  simp only [carry_cons, Token.relocate_kind, keyword]
  refine Tracks.andThen (expect_tracks safe (by decide)) ?_
  rintro name last rest small small' ⟨later, _⟩
  cases rest with
  | nil =>
    obtain ⟨place, final, braced, rfl⟩ := later.bounded.nil
    exact fail_tracks later.bounded.cons
  | cons next rest =>
    refine Tracks.ite Iff.rfl (fun _ => ?_) fun _ => Tracks.ite Iff.rfl (fun assigns => ?_) fun _ => ?_
    · exact Tracks.behind (done_tracks later.used)
    · have given := exprs rest (Nat.lt_of_succ_lt small) (later.tail (by simp [assigns]))
      refine Tracks.behind (Tracks.andThen given.behind ?_)
      intro value last rest _ _ after
      exact optionalSemicolon_tracks after rfl
    · exact fail_tracks later.bounded.cons

/-- Output, whose value stands in parentheses. -/
theorem statement_tracks_print (keyword : t.kind = .keyword .print) (safe : m.Safe tail)
    (exprs : m.ExpressionsTrack depth (t :: tail).length) :
    m.Tracks (Stmt.relocate m.place) m.Used (statement m.final depth (t :: tail))
      (statement m.final' depth (m.carry (t :: tail))) := by
  rw [statement.eq_def m.final, statement.eq_def m.final']
  simp only [carry_cons, Token.relocate_kind, keyword]
  refine Tracks.andThen (expect_tracks safe (by decide)) ?_
  rintro _ opening rest small small' ⟨inside, _⟩
  refine Tracks.andThen (exprs rest small inside).behind ?_
  intro value last rest _ _ later
  refine Tracks.andThen (expect_tracks later (by decide)) ?_
  rintro _ last rest _ _ ⟨after, _⟩
  exact optionalSemicolon_tracks after rfl

/-- A branch. Behind its first block it asks for one more token, and there an alternative may start. -/
theorem statement_tracks_cond (keyword : t.kind = .keyword .cond) (safe : m.Safe tail)
    (exprs : m.ExpressionsTrack depth (t :: tail).length) (blocks : m.BlocksTrack depth (t :: tail).length) :
    m.Tracks (Stmt.relocate m.place) m.Used (statement m.final depth (t :: tail))
      (statement m.final' depth (m.carry (t :: tail))) := by
  rw [statement.eq_def m.final, statement.eq_def m.final']
  simp only [carry_cons, Token.relocate_kind, keyword]
  refine Tracks.andThen (exprs tail (Nat.lt_succ_self _) safe).behind ?_
  intro condition last rest small₁ _ later
  refine Tracks.andThen (expect_tracks later (by decide)) ?_
  rintro _ brace rest small₂ _ ⟨inside, opens⟩
  refine Tracks.andThen (blocks brace rest (by simp at small₁ small₂ ⊢; omega) (opens rfl) inside) ?_
  intro consequence last rest small₃ _ after
  cases rest with
  | nil =>
    obtain ⟨place, final, braced, rfl⟩ := after.bounded.nil
    exact done_tracks (.inl after)
  | cons next rest =>
    refine Tracks.ite Iff.rfl (fun otherwise => ?_) fun _ => done_tracks (.inl after)
    refine Tracks.behind (Tracks.andThen (expect_tracks (after.tail (by simp [otherwise])) (by decide)) ?_)
    rintro _ brace rest small₄ _ ⟨inside, opens⟩
    have second := blocks brace rest (by simp at small₁ small₂ small₃ small₄ ⊢; omega) (opens rfl) inside
    exact Tracks.map (second.weaken fun _ => .inl) fun _ => rfl

theorem statement_tracks_foreign (keyword : t.kind = .keyword .foreign) (safe : m.Safe tail) :
    m.Tracks (Stmt.relocate m.place) m.Used (statement m.final depth (t :: tail))
      (statement m.final' depth (m.carry (t :: tail))) := by
  rw [statement.eq_def m.final, statement.eq_def m.final']
  simp only [carry_cons, Token.relocate_kind, keyword]
  refine Tracks.andThen (expect_tracks safe (by decide)) ?_
  rintro name last rest small small' ⟨later, _⟩
  cases rest with
  | nil =>
    obtain ⟨place, final, braced, rfl⟩ := later.bounded.nil
    exact fail_tracks later.bounded.cons
  | cons next rest =>
    refine Tracks.ite Iff.rfl (fun _ => ?_) fun _ => fail_tracks later.bounded.cons
    exact Tracks.behind (done_tracks later.used)

/-- A return ends at a semicolon, in front of a closing brace, at the end of the text, or behind its
value. -/
theorem statement_tracks_ret (keyword : t.kind = .keyword .ret) (safe : m.Safe tail)
    (exprs : m.ExpressionsTrack depth (t :: tail).length) :
    m.Tracks (Stmt.relocate m.place) m.Used (statement m.final depth (t :: tail))
      (statement m.final' depth (m.carry (t :: tail))) := by
  rw [statement.eq_def m.final, statement.eq_def m.final']
  simp only [carry_cons, Token.relocate_kind, keyword]
  cases tail with
  | nil =>
    obtain ⟨place, final, braced, rfl⟩ := safe.bounded.nil
    exact done_tracks (.inl safe)
  | cons next rest =>
    refine Tracks.ite Iff.rfl (fun _ => ?_) fun _ => Tracks.ite Iff.rfl (fun _ => ?_) fun _ => ?_
    · exact Tracks.behind (done_tracks safe.used)
    · exact done_tracks (.inl safe)
    · refine Tracks.andThen (exprs (next :: rest) (Nat.lt_succ_self _) safe).behind ?_
      intro value last rest _ _ later
      exact optionalSemicolon_tracks later rfl

theorem statement_tracks_func {next : Token} {rest : List Token} (keyword : t.kind = .keyword .func)
    (named : next.kind = .ident) (safe : m.Safe rest) (blocks : m.BlocksTrack depth (t :: next :: rest).length) :
    m.Tracks (Stmt.relocate m.place) m.Used (statement m.final depth (t :: next :: rest))
      (statement m.final' depth (m.carry (t :: next :: rest))) := by
  rw [statement.eq_def m.final, statement.eq_def m.final']
  simp only [carry_cons, Token.relocate_kind, keyword, named, and_self, ↓reduceIte]
  refine Tracks.behind (Tracks.andThen (header_tracks safe) ?_)
  rintro params brace rest small _ ⟨inside, braced⟩
  have body := blocks brace rest (Nat.lt_succ_of_lt small) braced inside
  exact Tracks.map (body.weaken fun _ => .inl) fun _ => rfl

theorem statement_tracks_assign {next : Token} {rest : List Token} (named : t.kind = .ident)
    (assigns : next.kind = .symbol .assign) (safe : m.Safe rest)
    (exprs : m.ExpressionsTrack depth (t :: next :: rest).length) :
    m.Tracks (Stmt.relocate m.place) m.Used (statement m.final depth (t :: next :: rest))
      (statement m.final' depth (m.carry (t :: next :: rest))) := by
  rw [statement.eq_def m.final, statement.eq_def m.final']
  simp only [carry_cons, Token.relocate_kind, assigns, named, reduceCtorEq, and_self, ↓reduceIte]
  have given := exprs rest (Nat.lt_succ_of_lt (Nat.lt_succ_self _)) safe
  refine Tracks.behind (Tracks.andThen given.behind ?_)
  intro value last rest _ _ later
  exact optionalSemicolon_tracks later rfl

end Statements

mutual

/-- The last token of an expression is no semicolon, so it ends inside the moved tokens and the
rest is safe. -/
theorem expression_tracks (depth : Nat) (level : Level) (input : List Token) (safe : m.Safe input) :
    m.Tracks (Expr.relocate m.place) m.Safe (expression m.final depth level input)
      (expression m.final' depth level (m.carry input)) := by
  rw [expression, expression]
  refine Tracks.andThen (operand_tracks depth input safe) ?_
  intro left last rest small _ later
  exact climb_tracks depth level left last rest later
termination_by 8 * input.length + 2
decreasing_by all_goals omega

theorem operand_tracks (depth : Nat) (input : List Token) (safe : m.Safe input) :
    m.Tracks (Expr.relocate m.place) m.Safe (operand m.final depth input)
      (operand m.final' depth (m.carry input)) := by
  cases input with
  | nil =>
    obtain ⟨place, final, braced, rfl⟩ := safe.bounded.nil
    rw [operand.eq_def, operand.eq_def]
    exact fail_tracks safe.bounded
  | cons t tail =>
    rw [operand.eq_def m.final, operand.eq_def m.final']
    dsimp only [carry_cons, Token.relocate_kind]
    split
    · next name => exact done_tracks (safe.tail (by simp [name]))
    · next digits =>
      dsimp only [Token.relocate_literal]
      split
      · exact done_tracks (safe.tail (by simp [digits]))
      · exact fail_tracks safe.bounded
    · next string => exact done_tracks (safe.tail (by simp [string]))
    · next opens =>
      have inside := expression_tracks depth .lowest tail (safe.tail (by simp [opens]))
      refine Tracks.andThen inside.behind ?_
      intro inner last rest _ _ later
      exact Tracks.map (Tracks.weaken (expect_tracks later (by decide)) fun _ => And.left) fun _ => rfl
    · next keyword =>
      refine Tracks.andThen (header_tracks (safe.tail (by simp [keyword]))) ?_
      rintro params brace rest small _ ⟨inside, braced⟩
      exact Tracks.map (block_tracks depth brace rest braced inside) fun _ => rfl
    · exact fail_tracks safe.bounded
    · exact fail_tracks safe.bounded
termination_by 8 * input.length + 1
decreasing_by
  all_goals subst_vars
  · simp only [List.length_cons]
    omega
  · omega

/-- Operators and calls behind an operand, as long as they bind tightly enough. -/
theorem climb_tracks (depth : Nat) (level : Level) (left : Expr) (last : Token) (input : List Token)
    (safe : m.Safe input) :
    m.Tracks (Expr.relocate m.place) m.Safe (climb m.final depth level left last input)
      (climb m.final' depth level (left.relocate m.place) (last.relocate m.place) (m.carry input)) := by
  cases input with
  | nil =>
    obtain ⟨place, final, braced, rfl⟩ := safe.bounded.nil
    rw [climb.eq_def, climb.eq_def]
    exact done_tracks safe
  | cons t tail =>
    rw [climb.eq_def m.final, climb.eq_def m.final']
    refine Tracks.ite Iff.rfl (fun binds => ?_) fun _ => done_tracks safe
    -- A semicolon binds nothing, so what is read next stands in front of one.
    have inner : t.kind ≠ .symbol .semicolon := by
      intro ends
      rw [ends] at binds
      exact absurd binds (Nat.not_lt_zero _)
    have later := safe.tail inner
    dsimp only [Token.relocate_kind]
    split
    · next op found =>
      refine Tracks.behind (Tracks.andThen (expression_tracks depth op.level tail later).behind ?_)
      intro right last rest small _ after
      exact climb_tracks depth level (.binary op left right t.location) last rest after
    · refine Tracks.behind (Tracks.andThen (delimited_tracks later fun part small _ =>
        expression_tracks depth .lowest part) ?_)
      intro args last rest small _ after
      rw [← Expr.relocateAll_eq_map]
      exact climb_tracks depth level (.call left args t.location) last rest after
termination_by 8 * input.length
decreasing_by
  all_goals subst_vars
  all_goals simp only [List.length_cons] at *
  all_goals omega

theorem block_tracks (depth : Nat) (brace : Token) (rest : List Token) (braced : m.braced)
    (safe : m.Safe rest) :
    m.Tracks (Block.relocate m.place) m.Safe (block m.final depth brace rest)
      (block m.final' depth (brace.relocate m.place) (m.carry rest)) := by
  rw [block, block]
  refine Tracks.map (statements_tracks (depth + 1) brace.location rest braced (.inl safe)).behind ?_
  intro body
  rw [Block.relocate, Stmt.relocateAll_eq_map, Token.relocate_location]
termination_by 8 * rest.length + 6
decreasing_by all_goals omega

/-- The statements of a block. This is the one reading that may run on into what follows: with the
moved tokens used up and no closing brace met, it fails here and goes on there. -/
theorem statements_tracks (depth : Nat) (opened : Location) (input : List Token) (braced : m.braced)
    (used : m.Used input) :
    m.Tracks (List.map (Stmt.relocate m.place)) m.Safe (statements m.final depth opened input)
      (statements m.final' depth (m.place opened) (m.carry input)) := by
  cases input with
  | nil =>
    by_cases bounded : m.Bounded []
    · obtain ⟨place, final, braced, rfl⟩ := bounded.nil
      rw [statements.eq_def, statements.eq_def]
      exact fail_tracks bounded
    · rw [statements.eq_def m.final]
      exact ⟨fun loud => absurd rfl loud, fun bounded' => absurd bounded' bounded, .inr braced⟩
  | cons t tail =>
    have safe : m.Safe (t :: tail) := used.resolve_right (List.cons_ne_nil t tail)
    rw [statements.eq_def m.final, statements.eq_def m.final']
    dsimp only [carry_cons]
    have same : (t.relocate m.place).kind = t.kind := rfl
    by_cases closes : t.kind = .symbol .rightBrace
    · rw [dif_pos closes, dif_pos (same.trans closes)]
      exact done_tracks (safe.tail (by simp [closes]))
    · rw [dif_neg closes, dif_neg (same ▸ closes)]
      refine Tracks.orElse braced safe.bounded (statement_tracks depth (t :: tail) safe) ?_ ?_ ?_
      · intro s last rest small _ later
        exact Tracks.behind (Tracks.map (statements_tracks depth opened rest braced later) fun _ => rfl)
      · intro resume ending ending' bounded
        have found : m.Safe resume := ⟨bounded, fun u member => safe.free u (ending.subset member)⟩
        have shorter := recover_of_suffix_length_lt depth t tail resume ending fun holds => closes holds.1
        have going := statements_tracks depth opened (recover depth resume) braced (used_recover depth found)
        rw [← recover_carry depth found] at going
        exact going
      · intro ending
        refine ⟨⟨.unclosedBlock opened, m.final.location⟩, ?_⟩
        simp only [recover, Scan.within]
        rw [statements.eq_def]
        rfl
termination_by 8 * input.length + 5
decreasing_by
  all_goals subst_vars
  all_goals omega

/-- One statement of any form, by the tokens it begins with. -/
theorem statement_tracks (depth : Nat) (input : List Token) (safe : m.Safe input) :
    m.Tracks (Stmt.relocate m.place) m.Used (statement m.final depth input)
      (statement m.final' depth (m.carry input)) := by
  cases input with
  | nil =>
    obtain ⟨place, final, braced, rfl⟩ := safe.bounded.nil
    rw [statement.eq_def, statement.eq_def]
    exact fail_tracks safe.bounded
  | cons t tail =>
    have exprs : m.ExpressionsTrack depth (t :: tail).length := fun part small =>
      expression_tracks depth .lowest part
    have blocks : m.BlocksTrack depth (t :: tail).length := fun brace part small =>
      block_tracks depth brace part
    cases begins t tail with
    | var keyword => exact statement_tracks_var keyword (safe.tail (by simp [keyword])) exprs
    | print keyword => exact statement_tracks_print keyword (safe.tail (by simp [keyword])) exprs
    | cond keyword => exact statement_tracks_cond keyword (safe.tail (by simp [keyword])) exprs blocks
    | foreign keyword => exact statement_tracks_foreign keyword (safe.tail (by simp [keyword]))
    | ret keyword => exact statement_tracks_ret keyword (safe.tail (by simp [keyword])) exprs
    | block opens =>
      rw [statement.eq_def m.final, statement.eq_def m.final']
      simp only [carry_cons, Token.relocate_kind, opens]
      have body := blocks t tail (Nat.lt_succ_self _) (safe.braced opens) (safe.tail (by simp [opens]))
      exact Tracks.map (body.weaken fun _ => .inl) fun _ => rfl
    | func keyword named =>
      have later := safe.tail (by simp [keyword])
      exact statement_tracks_func keyword named (later.tail (by simp [named])) blocks
    | assign named assigns =>
      have later := safe.tail (by simp [named])
      exact statement_tracks_assign named assigns (later.tail (by simp [assigns])) exprs
    | bare other =>
      rw [statement_bare other, carry_cons, statement_bare (bare_carry other safe)]
      exact bareExpression_tracks depth t tail safe
termination_by 8 * input.length + 4
decreasing_by
  all_goals subst_vars
  · omega
  · omega
  · simp only [List.length_cons]
    omega

theorem bareExpression_tracks (depth : Nat) (t : Token) (rest : List Token) (safe : m.Safe (t :: rest)) :
    m.Tracks (Stmt.relocate m.place) m.Used (bareExpression m.final depth t rest)
      (bareExpression m.final' depth (t.relocate m.place) (m.carry rest)) := by
  rw [bareExpression, bareExpression]
  refine Tracks.andThen (expression_tracks depth .lowest (t :: rest) safe) ?_
  intro value last rest _ _ later
  exact optionalSemicolon_tracks later rfl
termination_by 8 * (rest.length + 1) + 3
decreasing_by
  simp only [List.length_cons]
  omega

end

/-- Reading goes on behind the moved tokens as if they stood alone, unless they may be
used up inside a block. -/
theorem program_carry (input : List Token) (used : m.Used input)
    (calm : m.Bounded [] ∨ (program m.final input).2 = [] ∨ ¬ m.braced) :
    program m.final' (m.carry input) =
      ((program m.final input).1.map (Stmt.relocate m.place) ++ (program m.final' m.more).1,
        (program m.final input).2.map (Diagnostic.relocate m.place) ++ (program m.final' m.more).2) := by
  cases input with
  | nil =>
    rw [program_nil]
    rfl
  | cons t tail =>
    have safe : m.Safe (t :: tail) := used.resolve_right (List.cons_ne_nil t tail)
    have step := m.statement_tracks 0 (t :: tail) safe
    unfold Tracks at step
    rw [carry_cons] at step ⊢
    rcases read : (statement m.final 0 (t :: tail)).val with ⟨recorded, ⟨s, last, rest⟩ | ⟨error, resume⟩⟩
    · rw [read] at step
      obtain ⟨_, later, read'⟩ := step
      have shorter := Scan.rest_length_lt (Scan.suffix_of_parsed read)
      rw [program_of_parsed read] at calm ⊢
      have others := program_carry rest later (by
        rcases calm with bounded | silent | flat
        · exact .inl bounded
        · exact .inr (.inl (List.append_eq_nil_iff.mp silent).2)
        · exact .inr (.inr flat))
      rw [program_of_parsed read', others]
      simp
    · rw [read] at step
      have ending := Scan.suffix_of_failed read
      rw [program_of_failed read] at calm ⊢
      have quiet : m.Bounded [] ∨ ¬ m.braced :=
        calm.imp_right fun silent => silent.resolve_left (by simp)
      have bounded : m.Bounded resume := by
        rcases quiet with ends | flat
        · exact .inl (ends.resolve_right not_ended_nil)
        · exact step.2.2.resolve_right flat
      have found : m.Safe resume := ⟨bounded, fun u member => safe.free u (ending.subset member)⟩
      have shorter := recover_of_suffix_length_lt 0 t tail resume ending (by simp)
      have others := program_carry (recover 0 resume) (used_recover 0 found) (quiet.imp_right .inr)
      rw [program_of_failed (step.2.1 bounded), recover_carry 0 found, others]
      simp
termination_by input.length

end ImpToC.Parse.Transfer
