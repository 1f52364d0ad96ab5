import ImpToC.Proofs.Grammar.Soundness
import ImpToC.Proofs.Locality.Layout
import ImpToC.Proofs.Stepwise.Progress

/-!
What one step of the parser does with the tokens. The ones that are not used yet begin at
the current token or right behind it, and where a step fails, the error is told at the first
of them. Braces are used one at a time: the one that opens a block when it is entered, the
one that closes it when it is left. Only recovery passes over tokens without using them, and
only recovery gives one back. All that later invariants say about braces and about the places
of errors follows from these cases.
-/
namespace ImpToC.Parse.Machine

/-- No brace. -/
def Plain (t : Token) : Prop := t.kind ∉ [.symbol .leftBrace, .symbol .rightBrace]

theorem plain_of_kind {t : Token} {kind : Token.Kind} (same : t.kind = kind)
    (other : kind ∉ [.symbol .leftBrace, .symbol .rightBrace]) : Plain t := by
  unfold Plain
  rw [same]
  exact other

/-- Each token stands before the next one, and the last before the end of the text. -/
def InOrder (final : Token) (ts : List Token) : Prop :=
  (ts ++ [final]).Pairwise fun t u => t.location.Before u.location

section Order

variable {final t : Token} {ts us : List Token}

theorem InOrder.suffix (inOrder : InOrder final us) (ending : ts <:+ us) : InOrder final ts := by
  obtain ⟨front, rfl⟩ := ending
  unfold InOrder at inOrder
  rw [List.append_assoc] at inOrder
  exact (List.pairwise_append.mp inOrder).2.1

/-- The first token stands before whatever comes next. -/
theorem InOrder.head (inOrder : InOrder final (t :: ts)) : t.location.Before (ts.headD final).location := by
  have before := (List.pairwise_cons.mp inOrder).1
  cases ts with
  | nil => exact before final (List.mem_singleton_self final)
  | cons u ts => exact before u List.mem_cons_self

end Order

/-- A reading that fails stands at the token where its error is told, or at the one in front
of it. The second list is what it has not used. -/
inductive Stops (final : Token) (error : Diagnostic) : List Token → List Token → Prop where
  | here {left : List Token} (told : error.location = (left.headD final).location) :
      Stops final error left left
  | behind {last : Token} {left : List Token} (told : error.location = (left.headD final).location) :
      Stops final error (last :: left) left

/-- The tokens that are not used. A loop, a statement and an operand begin with the current
one, and what was read has ended with it. -/
def State.unread (σ : State) : List Token :=
  match σ.control, σ.window with
  | .loop _ _, window | .statement, window | .operand, window => window
  | .climb _ _, window | .expr _, window | .stmt _, window | .block _, window => window.tail
  | .failed _, [] => []
  | .failed error, t :: rest => if error.location = t.location then t :: rest else rest

/-- After a failure it is the current token at most that is used. -/
theorem State.unread_of_failed {σ : State} {error : Diagnostic} (control : σ.control = .failed error) :
    σ.unread = σ.window ∨ ∃ t, σ.window = t :: σ.unread := by
  obtain ⟨_, stack, window, errors, depth⟩ := σ
  obtain rfl : _ = Control.failed error := control
  cases window with
  | nil => exact .inl rfl
  | cons t rest =>
    change (if error.location = t.location then t :: rest else rest) = t :: rest ∨
      ∃ u, t :: rest = u :: if error.location = t.location then t :: rest else rest
    split
    · exact .inl rfl
    · exact .inr ⟨t, rfl⟩

theorem State.unread_suffix (σ : State) : σ.unread <:+ σ.window := by
  obtain ⟨control, stack, window, errors, depth⟩ := σ
  cases control with
  | loop | statement | operand => exact List.suffix_refl _
  | climb | expr | stmt | block => exact List.tail_suffix _
  | failed error =>
    have control : State.control ⟨.failed error, stack, window, errors, depth⟩ = .failed error := rfl
    rcases State.unread_of_failed control with whole | ⟨t, used⟩
    · exact whole ▸ List.suffix_refl _
    · exact ⟨[t], used.symm⟩

namespace Stops

variable {final : Token} {error : Diagnostic} {window left : List Token}

theorem told (stops : Stops final error window left) : error.location = (left.headD final).location := by
  cases stops with
  | here told => exact told
  | behind told => exact told

theorem unread_fail (stops : Stops final error window left) (inOrder : InOrder final window) (σ : State) :
    (σ.fail error window).unread = left := by
  cases stops with
  | here told =>
    cases window with
    | nil => rfl
    | cons t rest => exact if_pos told
  | @behind last left told =>
    refine if_neg fun same => ?_
    exact inOrder.head.ne (same.symm.trans told)

end Stops

/-- How a piece ends that holds no expression and no statement: with a token of the kind, or
with an error. In front of that it uses no braces, and it records nothing. -/
inductive EndsAt (final : Token) (kind : Token.Kind) {α : Type} {input : List Token} (ahead : List Token)
    (s : Scan α input) : Prop where
  | found {value : α} {used tail : List Token} {last : Token} (parted : ahead = used ++ last :: tail)
      (plain : ∀ t ∈ used, Plain t) (same : last.kind = kind) (read : s.Reads value last tail)
  | stopped {error : Diagnostic} {resume used left : List Token} (parted : ahead = used ++ left)
      (plain : ∀ t ∈ used, Plain t) (stops : Stops final error resume left)
      (failed : s.val = ⟨[], .failed error resume⟩)

section Pieces

variable {α β : Type} {final : Token} {kind kind' : Token.Kind} {input ahead : List Token}

theorem EndsAt.at_once {s : Scan α input} {value : α} {t : Token} {tail : List Token} (same : t.kind = kind)
    (read : s.Reads value t tail) : EndsAt final kind (t :: tail) s :=
  .found (List.nil_append _).symm (by simp) same read

theorem EndsAt.at_error {s : Scan α input} {error : Diagnostic} {resume : List Token}
    (failed : s.val = ⟨[], .failed error resume⟩) (stops : Stops final error resume ahead) :
    EndsAt final kind ahead s :=
  .stopped (List.nil_append _).symm (by simp) stops failed

theorem EndsAt.map {s : Scan α input} (ends : EndsAt final kind ahead s) (f : α → β) :
    EndsAt final kind ahead (s.map f) := by
  cases ends with
  | found parted plain same read => exact .found parted plain same (read.map f)
  | @stopped error resume used left parted plain stops failed =>
    refine .stopped parted plain stops ?_
    obtain ⟨reading, within⟩ := s
    obtain rfl : reading = ⟨[], .failed error resume⟩ := failed
    rfl

theorem EndsAt.behind {s : Scan α input} (ends : EndsAt final kind ahead s) (t : Token) :
    EndsAt final kind ahead (s.behind t) := by
  cases ends with
  | found parted plain same read => exact .found parted plain same read.behind
  | stopped parted plain stops failed => exact .stopped parted plain stops failed

theorem EndsAt.cons {s : Scan α input} {t : Token} (ends : EndsAt final kind ahead s) (plain : Plain t) :
    EndsAt final kind (t :: ahead) s := by
  cases ends with
  | found parted others same read =>
    exact .found (congrArg (t :: ·) parted) (List.forall_mem_cons.mpr ⟨plain, others⟩) same read
  | stopped parted others stops failed =>
    exact .stopped (congrArg (t :: ·) parted) (List.forall_mem_cons.mpr ⟨plain, others⟩) stops failed

theorem EndsAt.andThen {s : Scan α input}
    {next : (value : α) → (last : Token) → (rest : List Token) →
      rest.length < input.length → Scan β (last :: rest)}
    (ends : EndsAt final kind ahead s) (other : kind ∉ [.symbol .leftBrace, .symbol .rightBrace])
    (later : ∀ value last rest shorter, EndsAt final kind' rest (next value last rest shorter)) :
    EndsAt final kind' ahead (s.andThen next) := by
  obtain ⟨reading, within⟩ := s
  cases ends with
  | @found value used tail last parted plain same read =>
    obtain rfl : reading = ⟨[], .parsed value last tail⟩ := read
    have plain' : ∀ t ∈ used ++ [last], Plain t :=
      List.forall_mem_append.mpr ⟨plain, List.forall_mem_singleton.mpr (plain_of_kind same other)⟩
    cases later value last tail (Scan.rest_length_lt within) with
    | found parted' more same' read' =>
      refine .found ?_ (List.forall_mem_append.mpr ⟨plain', more⟩) same' read'
      rw [parted, parted', List.append_assoc, List.append_assoc, List.singleton_append]
    | stopped parted' more stops failed =>
      refine .stopped ?_ (List.forall_mem_append.mpr ⟨plain', more⟩) stops failed
      rw [parted, parted', List.append_assoc, List.append_assoc, List.singleton_append]
  | @stopped error resume used left parted plain stops failed =>
    obtain rfl : reading = ⟨[], .failed error resume⟩ := failed
    exact .stopped parted plain stops rfl

theorem expect_endsAt (last : Token) (rest : List Token) : EndsAt final kind rest (expect final kind last rest) := by
  cases rest with
  | nil => exact .at_error rfl (.behind rfl)
  | cons t tail =>
    by_cases same : t.kind = kind
    · exact .at_once same (expect_reads same)
    · have failed : (expect final kind last (t :: tail)).val =
          ⟨[], .failed (.unexpected (.kind kind) t) (last :: t :: tail)⟩ := by
        rw [expect, if_neg same]
        rfl
      exact .at_error failed (.behind rfl)

theorem parameter_endsAt (input : List Token) : EndsAt final .ident input (parameter final input) := by
  cases input with
  | nil => exact .at_error rfl (.here rfl)
  | cons t tail =>
    by_cases named : t.kind = .ident
    · have read : (parameter final (t :: tail)).Reads t.literal t tail := by
        rw [parameter, if_pos named]
        exact Scan.done_reads t.literal t tail
      exact .at_once named read
    · have failed : (parameter final (t :: tail)).val =
          ⟨[], .failed (.unexpected (.kind .ident) t) (t :: tail)⟩ := by
        rw [parameter, if_neg named]
        rfl
      exact .at_error failed (.here rfl)

/-- One name after the other. -/
theorem names_endsAt {bound : Nat} (input : List Token) (small : input.length < bound) :
    EndsAt final (.symbol .rightParen) input
      (items final bound (fun input _ => parameter final input) input small) := by
  rw [items]
  refine (parameter_endsAt input).andThen (by decide) fun name last rest shorter => ?_
  cases rest with
  | nil => exact .at_error rfl (.behind rfl)
  | cons t tail =>
    have shrinks : tail.length < input.length := Nat.lt_of_succ_lt shorter
    dsimp only
    by_cases comma : t.kind = .symbol .comma
    · rw [if_pos comma]
      have others := names_endsAt tail (Nat.lt_trans shrinks small)
      exact (((others.map (name :: ·)).behind t).behind last).cons (plain_of_kind comma (by decide))
    · rw [if_neg comma]
      by_cases closes : t.kind = .symbol .rightParen
      · rw [if_pos closes]
        exact .at_once closes (Scan.done_reads [name] t tail).behind
      · rw [if_neg closes]
        exact .at_error rfl (.behind rfl)
termination_by input.length

theorem parameters_endsAt (opening : Token) (rest : List Token) :
    EndsAt final (.symbol .rightParen) rest
      (delimited final opening rest fun input _ => parameter final input) := by
  rw [delimited.eq_def]
  cases rest with
  | nil => exact (names_endsAt [] (Nat.lt_succ_self _)).behind opening
  | cons t tail =>
    dsimp only
    by_cases closes : t.kind = .symbol .rightParen
    · rw [if_pos closes]
      exact .at_once closes (Scan.done_reads [] t tail).behind
    · rw [if_neg closes]
      exact (names_endsAt (t :: tail) (Nat.lt_succ_self _)).behind opening

theorem header_endsAt (last : Token) (rest : List Token) :
    EndsAt final (.symbol .leftBrace) rest (header final last rest) := by
  unfold header
  refine (expect_endsAt last rest).andThen (by decide) fun _ opening rest _ => ?_
  refine (parameters_endsAt opening rest).andThen (by decide) fun params last rest _ => ?_
  exact (expect_endsAt last rest).map fun _ => params

end Pieces

/-- Where a piece has recorded nothing, the errors stay as they are. -/
theorem after_reads {α : Type} {input rest : List Token} {s : Scan α input} {value : α} {last : Token} {σ : State}
    {next : State → α → Token → List Token → State} (read : s.Reads value last rest) :
    σ.after s next = next σ value last rest := by
  unfold Scan.Reads at read
  simp only [State.after, read, List.append_nil]

/-- A step that reads on, with the calls `below` still waiting. It stays within its
construct, or it enters a block. -/
inductive Proceeds (final : Token) (below : List Frame) (σ τ : State) : Prop where
  | within {used : List Token} (plain : ∀ t ∈ used, Plain t) (unread : σ.unread = used ++ τ.unread)
      (inside : τ.control.loops = []) (errors : τ.errors = σ.errors) (depth : τ.depth = σ.depth)
      (waiting : below <:+ τ.stack)
      (told : ∀ error, τ.control = .failed error → error.location = (τ.unread.headD final).location)
  | into {used : List Token} {brace : Token} (plain : ∀ t ∈ used, Plain t)
      (opens : brace.kind = .symbol .leftBrace) (unread : σ.unread = used ++ brace :: τ.unread)
      (control : τ.control = .loop (some brace.location) []) (errors : τ.errors = σ.errors)
      (depth : τ.depth = σ.depth + 1) (waiting : below <:+ τ.stack)

/-- In the middle of the step from `σ₀`: the tokens in front of `left` have been used. -/
structure Passing (final : Token) (below : List Frame) (σ₀ σ : State) (left : List Token) : Prop where
  inOrder : InOrder final σ₀.window
  used : ∃ used, (∀ t ∈ used, Plain t) ∧ σ₀.unread = used ++ left
  errors : σ.errors = σ₀.errors
  depth : σ.depth = σ₀.depth
  stack : σ.stack = below

namespace Passing

variable {final : Token} {below : List Frame} {σ₀ σ : State} {left : List Token}

theorem start {σ : State} (inOrder : InOrder final σ.window) (unread : σ.unread = left) :
    Passing final σ.stack σ σ left :=
  ⟨inOrder, ⟨[], by simp, unread⟩, rfl, rfl, rfl⟩

theorem useAll (ts : List Token) (passing : Passing final below σ₀ σ (ts ++ left))
    (plain : ∀ t ∈ ts, Plain t) : Passing final below σ₀ σ left := by
  obtain ⟨used, others, parted⟩ := passing.used
  refine ⟨passing.inOrder, ⟨used ++ ts, ?_, ?_⟩, passing.errors, passing.depth, passing.stack⟩
  · exact List.forall_mem_append.mpr ⟨others, plain⟩
  · rw [parted, List.append_assoc]

theorem use {t : Token} {kind : Token.Kind} (passing : Passing final below σ₀ σ (t :: left))
    (same : t.kind = kind) (other : kind ∉ [.symbol .leftBrace, .symbol .rightBrace]) :
    Passing final below σ₀ σ left :=
  useAll [t] passing (List.forall_mem_singleton.mpr (plain_of_kind same other))

/-- A construct was read, and `last` is its last token. -/
theorem value {control : Control} {last : Token} (passing : Passing final below σ₀ σ left)
    (ended : (σ.give control (last :: left)).unread = left) (inside : control.loops = [])
    (sound : ∀ error, control ≠ .failed error) :
    Proceeds final below σ₀ (σ.give control (last :: left)) := by
  obtain ⟨used, plain, parted⟩ := passing.used
  refine .within plain ?_ inside passing.errors passing.depth ?_ ?_
  · rw [ended]
    exact parted
  · exact passing.stack ▸ List.suffix_refl _
  · intro error failed
    exact absurd failed (sound error)

theorem fail {error : Diagnostic} {window : List Token} (passing : Passing final below σ₀ σ left)
    (ending : window <:+ σ₀.window) (stops : Stops final error window left) :
    Proceeds final below σ₀ (σ.fail error window) := by
  obtain ⟨used, plain, parted⟩ := passing.used
  have unread := stops.unread_fail (passing.inOrder.suffix ending) σ
  refine .within plain ?_ rfl passing.errors passing.depth ?_ ?_
  · rw [unread]
    exact parted
  · exact passing.stack ▸ List.suffix_refl _
  · intro other failed
    obtain rfl : error = other := Control.failed.inj failed
    rw [unread]
    exact stops.told

theorem call {level : Level} {frame : Frame} (passing : Passing final below σ₀ σ left) :
    Proceeds final below σ₀ (σ.call level frame left) := by
  obtain ⟨used, plain, parted⟩ := passing.used
  refine .within plain parted rfl passing.errors passing.depth ?_ ?_
  · exact passing.stack ▸ (List.suffix_cons _ _).trans (List.suffix_cons _ _)
  · intro error failed
    cases failed

theorem enter {frame : Frame} {brace : Token} (passing : Passing final below σ₀ σ (brace :: left))
    (opens : brace.kind = .symbol .leftBrace) : Proceeds final below σ₀ (σ.enter frame brace left) := by
  obtain ⟨used, plain, parted⟩ := passing.used
  refine .into plain opens parted rfl passing.errors (congrArg (· + 1) passing.depth) ?_
  exact passing.stack ▸ List.suffix_cons _ _

/-- A piece is passed over at once, and the step goes on behind it or fails in it. -/
theorem after {α : Type} {input : List Token} {s : Scan α input} {kind : Token.Kind}
    {next : State → α → Token → List Token → State} (passing : Passing final below σ₀ σ left)
    (ending : input <:+ σ₀.window) (ends : EndsAt final kind left s)
    (later : ∀ value last rest, Passing final below σ₀ σ (last :: rest) → last.kind = kind →
      last :: rest <:+ σ₀.window → Proceeds final below σ₀ (next σ value last rest)) :
    Proceeds final below σ₀ (σ.after s next) := by
  cases ends with
  | @found value used tail last parted plain same read =>
    rw [after_reads read]
    exact later value last tail (useAll used (parted ▸ passing) plain) same
      ((Scan.suffix_of_parsed read).trans ending)
  | @stopped error resume used rest parted plain stops failed =>
    have gives : σ.after s next = σ.fail error resume := by
      simp only [State.after, failed, List.append_nil]
    rw [gives]
    exact (useAll used (parted ▸ passing) plain).fail ((Scan.suffix_of_failed failed).trans ending) stops

/-- The end of a statement, with a semicolon or without. -/
theorem ended {s : Stmt} {last : Token} (passing : Passing final below σ₀ σ left) :
    Proceeds final below σ₀
      (σ.after (optionalSemicolon s last left) fun σ s last rest => σ.give (.stmt s) (last :: rest)) := by
  by_cases ends : ∃ t rest, left = t :: rest ∧ t.kind = .symbol .semicolon
  · obtain ⟨t, rest, rfl, semicolon⟩ := ends
    rw [after_reads (optionalSemicolon_some semicolon)]
    exact (passing.use semicolon (by decide)).value rfl rfl (by simp)
  · have none : ∀ t, left.head? = some t → t.kind ≠ .symbol .semicolon := by
      intro t first semicolon
      obtain ⟨rest, rfl⟩ := List.head?_eq_some_iff.mp first
      exact ends ⟨t, rest, rfl, semicolon⟩
    rw [after_reads (optionalSemicolon_none none)]
    exact passing.value rfl rfl (by simp)

end Passing

section Steps

variable {final : Token} {below : List Frame} {σ₀ σ : State}

theorem statement_proceeds (passing : Passing final below σ₀ σ σ.window) (ending : σ.window <:+ σ₀.window) :
    Proceeds final below σ₀ (σ.statement final) := by
  unfold State.statement
  cases window : σ.window with
  | nil =>
    rw [window] at passing
    exact passing.fail List.nil_suffix (.here rfl)
  | cons t tail =>
    rw [window] at passing ending
    have later := tail_suffix ending
    dsimp only
    split
    · next keyword =>
      refine (passing.use keyword (by decide)).after ending (expect_endsAt t tail) ?_
      intro name last rest passing named ending
      have passing := passing.use named (by decide)
      cases rest with
      | nil => exact passing.fail ending (.behind rfl)
      | cons next rest =>
        dsimp only
        split
        · next semicolon => exact (passing.use semicolon (by decide)).value rfl rfl (by simp)
        · split
          · next assigns => exact (passing.use assigns (by decide)).call
          · exact passing.fail ending (.behind rfl)
    · next keyword =>
      refine (passing.use keyword (by decide)).after ending (expect_endsAt t tail) ?_
      intro _ last rest passing opens ending
      exact (passing.use opens (by decide)).call
    · next keyword => exact (passing.use keyword (by decide)).call
    · next keyword =>
      refine (passing.use keyword (by decide)).after ending (expect_endsAt t tail) ?_
      intro name last rest passing named ending
      have passing := passing.use named (by decide)
      cases rest with
      | nil => exact passing.fail ending (.behind rfl)
      | cons next rest =>
        dsimp only
        split
        · next semicolon => exact (passing.use semicolon (by decide)).value rfl rfl (by simp)
        · exact passing.fail ending (.behind rfl)
    · next keyword =>
      have passing := passing.use keyword (by decide)
      cases tail with
      | nil => exact passing.value rfl rfl (by simp)
      | cons next rest =>
        dsimp only
        split
        · next semicolon => exact (passing.use semicolon (by decide)).value rfl rfl (by simp)
        · split
          · exact passing.value rfl rfl (by simp)
          · exact passing.call
    · next opens => exact passing.enter opens
    · cases tail with
      | nil => exact passing.call
      | cons next rest =>
        dsimp only
        split
        · next defines =>
          have passing := (passing.use defines.1 (by decide)).use defines.2 (by decide)
          refine passing.after later (header_endsAt next rest) ?_
          intro params brace rest passing opens _
          exact passing.enter opens
        · split
          · next assigns => exact ((passing.use assigns.1 (by decide)).use assigns.2 (by decide)).call
          · exact passing.call

theorem operand_proceeds (passing : Passing final below σ₀ σ σ.window) (ending : σ.window <:+ σ₀.window) :
    Proceeds final below σ₀ (σ.operand final) := by
  unfold State.operand
  cases window : σ.window with
  | nil =>
    rw [window] at passing
    exact passing.fail List.nil_suffix (.here rfl)
  | cons t tail =>
    rw [window] at passing ending
    dsimp only
    split
    · next named => exact (passing.use named (by decide)).value rfl rfl (by simp)
    · next number =>
      split
      · exact (passing.use number (by decide)).value rfl rfl (by simp)
      · exact passing.fail ending (.here rfl)
    · next string => exact (passing.use string (by decide)).value rfl rfl (by simp)
    · next opens => exact (passing.use opens (by decide)).call
    · next keyword =>
      refine (passing.use keyword (by decide)).after ending (header_endsAt t tail) ?_
      intro params brace rest passing opens _
      exact passing.enter opens
    · exact passing.fail ending (.here rfl)
    · exact passing.fail ending (.here rfl)

theorem climb_proceeds {level : Level} {left : Expr} {last : Token} {rest : List Token}
    (passing : Passing final below σ₀ σ rest) : Proceeds final below σ₀ (σ.climb level left last rest) := by
  unfold State.climb
  cases rest with
  | nil => exact passing.value rfl rfl (by simp)
  | cons t rest =>
    dsimp only
    split
    · next tight =>
      split
      · next op found =>
        have sign : Rendering.sign op ∉ [Symbol.leftBrace, .rightBrace] := by cases op <;> decide
        exact (passing.use (kind_of_operator found) (by simpa using sign)).call
      · next none =>
        have passing := passing.use (leftParen_of_binds tight none) (by decide)
        cases rest with
        | nil => exact passing.call
        | cons u rest =>
          dsimp only
          split
          · next closes => exact (passing.use closes (by decide)).value rfl rfl (by simp)
          · exact passing.call
    · exact passing.value rfl rfl (by simp)

theorem takeExpr_proceeds {e : Expr} {last : Token} {rest : List Token} {frame : Frame} {τ : State}
    (passing : Passing final below σ₀ σ rest) (ending : last :: rest <:+ σ₀.window)
    (taken : σ.takeExpr final e last rest frame = some τ) : Proceeds final below σ₀ τ := by
  unfold State.takeExpr at taken
  cases frame with
  | climbing level =>
    cases taken
    exact passing.value rfl rfl (by simp)
  | right level op left place =>
    cases taken
    exact passing.value rfl rfl (by simp)
  | group =>
    cases taken
    refine passing.after ending (expect_endsAt last rest) ?_
    intro _ last rest passing closes _
    exact (passing.use closes (by decide)).value rfl rfl (by simp)
  | argument level callee place done =>
    cases taken
    cases rest with
    | nil => exact passing.fail ending (.behind rfl)
    | cons t rest =>
      dsimp only
      split
      · next comma => exact (passing.use comma (by decide)).call
      · split
        · next closes => exact (passing.use closes (by decide)).value rfl rfl (by simp)
        · exact passing.fail ending (.behind rfl)
  | ending role place =>
    cases taken
    exact passing.ended
  | printed place =>
    cases taken
    refine passing.after ending (expect_endsAt last rest) ?_
    intro _ last rest passing closes _
    exact (passing.use closes (by decide)).ended
  | condition place =>
    cases taken
    refine passing.after ending (expect_endsAt last rest) ?_
    intro _ brace rest passing opens _
    exact passing.enter opens
  | loop | literal | consequence | body => cases taken

theorem takeBlock_proceeds {b : Block} {last : Token} {rest : List Token} {frame : Frame} {τ : State}
    (passing : Passing final below σ₀ σ rest) (ending : last :: rest <:+ σ₀.window)
    (taken : σ.takeBlock final b last rest frame = some τ) : Proceeds final below σ₀ τ := by
  unfold State.takeBlock at taken
  cases frame with
  | literal params place =>
    cases taken
    exact passing.value rfl rfl (by simp)
  | consequence condition place =>
    cases taken
    cases rest with
    | nil => exact passing.value rfl rfl (by simp)
    | cons next rest =>
      dsimp only
      split
      · next otherwise =>
        refine (passing.use otherwise.1 (by decide)).after (tail_suffix ending) (expect_endsAt next rest) ?_
        intro _ brace rest passing opens _
        exact passing.enter opens
      · exact passing.value rfl rfl (by simp)
  | body body =>
    cases taken
    exact passing.value rfl rfl (by simp)
  | loop | climbing | right | group | argument | ending | printed | condition => cases taken

end Steps

/-- All that a step can do. -/
inductive Stride (final : Token) (σ τ : State) : Prop where
  /-- A loop turns to its next statement. That of a block does not stand at a brace. -/
  | begins {opened : Option Location} {done : List Stmt} (control : σ.control = .loop opened done)
      (goesOn : ∀ l t, opened = some l → σ.window.head? = some t → t.kind ≠ .symbol .rightBrace)
      (next : τ = { σ with control := .statement, stack := .loop opened done :: σ.stack })
  /-- A construct is read on, by itself or by the call that it is handed to. -/
  | proceeds {below : List Frame} (value : σ.control.loops = []) (alive : ∀ error, σ.control ≠ .failed error)
      (calls : σ.stack = below ∨ ∃ frame, frame.loop? = none ∧ σ.stack = frame :: below)
      (proceeds : Proceeds final below σ τ)
  /-- A block ends. -/
  | closes {l : Location} {done : List Stmt} {brace : Token} {rest : List Token}
      (control : σ.control = .loop (some l) done) (window : σ.window = brace :: rest)
      (closes : brace.kind = .symbol .rightBrace)
      (next : τ = { σ with control := .block (.mk done l), depth := σ.depth - 1 })
  /-- The text ends within a block. -/
  | runsOut {l : Location} {done : List Stmt} (control : σ.control = .loop (some l) done)
      (window : σ.window = [])
      (next : τ = { σ with control := .failed ⟨.unclosedBlock l, final.location⟩, depth := σ.depth - 1 })
  /-- A loop takes in a statement. -/
  | adds {s : Stmt} {opened : Option Location} {done : List Stmt} {below : List Frame} {last : Token}
      {rest : List Token} (control : σ.control = .stmt s) (stack : σ.stack = .loop opened done :: below)
      (window : σ.window = last :: rest)
      (next : τ = { σ with control := .loop opened (done ++ [s]), stack := below, window := rest })
  /-- A call gives up with its part. -/
  | givesUp {error : Diagnostic} {frame : Frame} {below : List Frame} (control : σ.control = .failed error)
      (plain : frame.loop? = none) (stack : σ.stack = frame :: below) (next : τ = { σ with stack := below })
  /-- A loop records an error and goes on where recovery ends. -/
  | recovers {error : Diagnostic} {opened : Option Location} {done : List Stmt} {below : List Frame}
      (control : σ.control = .failed error) (stack : σ.stack = .loop opened done :: below)
      (next : τ = ⟨.loop opened done, below, recover σ.depth σ.window, σ.errors ++ [error], σ.depth⟩)

theorem iterate_stride {final : Token} {σ τ : State} {opened : Option Location} {done : List Stmt}
    (control : σ.control = .loop opened done) (moved : σ.iterate final opened done = some τ) :
    Stride final σ τ := by
  unfold State.iterate at moved
  split at moved
  · cases moved
  · next l window => exact .runsOut control window (Option.some.inj moved).symm
  · exact .begins control (by simp) (Option.some.inj moved).symm
  · next t rest l window =>
    split at moved
    · next closes => exact .closes control window closes (Option.some.inj moved).symm
    · next other =>
      refine .begins control ?_ (Option.some.inj moved).symm
      intro _ u _ first
      rw [window] at first
      obtain rfl : t = u := Option.some.inj first
      exact other

/-- Every step is one of these. -/
theorem step_stride {final : Token} {σ τ : State} (inOrder : InOrder final σ.window)
    (moved : step final σ = some τ) : Stride final σ τ := by
  obtain ⟨control, stack, window, errors, depth⟩ := σ
  cases control with
  | loop opened done => exact iterate_stride rfl moved
  | statement =>
    cases moved
    exact .proceeds rfl (by simp) (.inl rfl) (statement_proceeds (.start inOrder rfl) (List.suffix_refl _))
  | operand =>
    cases moved
    exact .proceeds rfl (by simp) (.inl rfl) (operand_proceeds (.start inOrder rfl) (List.suffix_refl _))
  | climb level left =>
    cases window with
    | nil => cases moved
    | cons last rest =>
      cases moved
      exact .proceeds rfl (by simp) (.inl rfl) (climb_proceeds (.start inOrder rfl))
  | expr e =>
    cases stack with
    | nil => cases moved
    | cons frame stack =>
      cases window with
      | nil => cases moved
      | cons last rest =>
        have plain : frame.loop? = none := by
          cases frame <;> first | rfl | cases moved
        have passing : Passing final stack ⟨.expr e, frame :: stack, last :: rest, errors, depth⟩
            ⟨.expr e, stack, last :: rest, errors, depth⟩ rest :=
          ⟨inOrder, ⟨[], by simp, rfl⟩, rfl, rfl, rfl⟩
        exact .proceeds rfl (by simp) (.inr ⟨frame, plain, rfl⟩)
          (takeExpr_proceeds passing (List.suffix_refl _) moved)
  | block b =>
    cases stack with
    | nil => cases moved
    | cons frame stack =>
      cases window with
      | nil => cases moved
      | cons last rest =>
        have plain : frame.loop? = none := by
          cases frame <;> first | rfl | cases moved
        have passing : Passing final stack ⟨.block b, frame :: stack, last :: rest, errors, depth⟩
            ⟨.block b, stack, last :: rest, errors, depth⟩ rest :=
          ⟨inOrder, ⟨[], by simp, rfl⟩, rfl, rfl, rfl⟩
        exact .proceeds rfl (by simp) (.inr ⟨frame, plain, rfl⟩)
          (takeBlock_proceeds passing (List.suffix_refl _) moved)
  | stmt s =>
    cases stack with
    | nil => cases moved
    | cons frame stack =>
      cases frame with
      | loop opened done =>
        cases window with
        | nil => cases moved
        | cons last rest => exact .adds rfl rfl rfl (Option.some.inj moved).symm
      | _ => cases moved
  | failed error =>
    cases stack with
    | nil => cases moved
    | cons frame stack =>
      cases frame with
      | loop opened done => exact .recovers rfl rfl (Option.some.inj moved).symm
      | _ => exact .givesUp rfl rfl rfl (Option.some.inj moved).symm

end ImpToC.Parse.Machine
