import ImpToC.Proofs.Stepwise.Machine

/-!
What one step of the parser can do. It opens a block, closes one, or leaves the loops in
progress alone, and the depth follows; the cursor never moves back; and a potential goes
down. The potential weighs the tokens ahead most, then the calls in progress, then what is
done next. A loop weighs little where recovery stays: there it can only end.
-/
namespace ImpToC.Parse.Machine

/-- The place where a loop was opened, if the call is a loop. -/
def Frame.loop? : Frame → Option (Option Location)
  | .loop opened _ => some opened
  | _ => none

def Control.loops : Control → List (Option Location)
  | .loop opened _ => [opened]
  | _ => []

/-- Recovery does not move from here. -/
def stalled (depth : Nat) : List Token → Bool
  | [] => true
  | t :: _ => t.kind = .symbol .rightBrace && 0 < depth

def Control.weight (stalled : Bool) : Control → Nat
  | .loop _ _ => if stalled then 1 else 10
  | .statement => 7
  | .operand | .climb _ _ => 1
  | _ => 0

namespace State

/-- The loops in progress, the innermost first. -/
def loops (σ : State) : List (Option Location) := σ.control.loops ++ σ.stack.filterMap Frame.loop?

/-- The number of blocks that are being read. -/
def openBlocks (σ : State) : Nat := σ.loops.countP Option.isSome

def potential (σ : State) : Nat :=
  16 * σ.window.length + 2 * σ.stack.length + σ.control.weight (stalled σ.depth σ.window)

end State

/-- What happens to the loops in progress, and with them to the depth. -/
inductive Nesting (σ τ : State) : Prop where
  | keeps (loops : τ.loops = σ.loops) (depth : τ.depth = σ.depth)
  | opens (l : Location) (loops : τ.loops = some l :: σ.loops) (depth : τ.depth = σ.depth + 1)
  | closes (l : Location) (loops : σ.loops = some l :: τ.loops) (depth : τ.depth = σ.depth - 1)

structure Progress (σ τ : State) : Prop where
  nesting : Nesting σ τ
  window : τ.window <:+ σ.window
  potential : τ.potential < σ.potential

/-- In the middle of the step from `σ₀`: the calls and the depth are settled, and `spare`
is left to be used up by the control. -/
structure Midway (σ₀ σ : State) (spare : Nat) : Prop where
  loops : σ.stack.filterMap Frame.loop? = σ₀.loops
  depth : σ.depth = σ₀.depth
  spare : 16 * σ₀.window.length + 2 * σ.stack.length + spare ≤ σ₀.potential

namespace Midway

variable {σ₀ σ : State} {spare : Nat} {window : List Token}

theorem value {control : Control} (midway : Midway σ₀ σ spare) (plain : control.loops = [])
    (light : ∀ stalled, control.weight stalled = 0) (ending : window <:+ σ₀.window) (some : 0 < spare) :
    Progress σ₀ (σ.give control window) := by
  have shorter := ending.length_le
  refine ⟨.keeps ?_ midway.depth, ending, Nat.lt_of_lt_of_le ?_ midway.spare⟩
  · unfold State.loops State.give
    rw [plain]
    exact midway.loops
  · unfold State.potential State.give
    rw [light]
    dsimp only
    omega

theorem fail {error : Diagnostic} (midway : Midway σ₀ σ spare) (ending : window <:+ σ₀.window)
    (some : 0 < spare) : Progress σ₀ (σ.fail error window) :=
  midway.value rfl (fun _ => rfl) ending some

theorem climb {level : Level} {left : Expr} (midway : Midway σ₀ σ spare) (ending : window <:+ σ₀.window)
    (less : window.length < σ₀.window.length ∨ 1 < spare) :
    Progress σ₀ (σ.give (.climb level left) window) := by
  have shorter := ending.length_le
  refine ⟨.keeps midway.loops midway.depth, ending, Nat.lt_of_lt_of_le ?_ midway.spare⟩
  unfold State.potential State.give
  simp only [Control.weight]
  omega

theorem call {level : Level} {frame : Frame} (midway : Midway σ₀ σ spare) (plain : frame.loop? = none)
    (ending : window <:+ σ₀.window) (less : window.length < σ₀.window.length ∨ 5 < spare) :
    Progress σ₀ (σ.call level frame window) := by
  have shorter := ending.length_le
  refine ⟨.keeps ?_ midway.depth, ending, Nat.lt_of_lt_of_le ?_ midway.spare⟩
  · unfold State.loops State.call
    rw [List.filterMap_cons_none rfl, List.filterMap_cons_none plain]
    exact midway.loops
  · unfold State.potential State.call
    simp only [Control.weight, List.length_cons]
    omega

theorem enter {frame : Frame} {brace : Token} (midway : Midway σ₀ σ spare) (plain : frame.loop? = none)
    (ending : brace :: window <:+ σ₀.window) : Progress σ₀ (σ.enter frame brace window) := by
  have shorter : window.length < σ₀.window.length := ending.length_le
  refine ⟨.opens brace.location ?_ (congrArg (· + 1) midway.depth), (List.suffix_cons _ _).trans ending,
    Nat.lt_of_lt_of_le ?_ midway.spare⟩
  · unfold State.loops State.enter
    rw [List.filterMap_cons_none plain, midway.loops]
    rfl
  · unfold State.potential State.enter
    simp only [Control.weight, List.length_cons]
    split <;> omega

/-- A piece that is passed over at once. -/
theorem after {α : Type} {input : List Token} {s : Scan α input} {next : State → α → Token → List Token → State}
    (midway : Midway σ₀ σ spare) (ending : input <:+ σ₀.window) (some : 0 < spare)
    (each : ∀ σ value last rest, Midway σ₀ σ spare → last :: rest <:+ σ₀.window →
      Progress σ₀ (next σ value last rest)) :
    Progress σ₀ (σ.after s next) := by
  obtain ⟨⟨recorded, outcome⟩, within⟩ := s
  have noted : Midway σ₀ { σ with errors := σ.errors ++ recorded } spare :=
    ⟨midway.loops, midway.depth, midway.spare⟩
  cases outcome with
  | parsed value last rest => exact each _ value last rest noted (List.IsSuffix.trans within ending)
  | failed error resume => exact noted.fail (List.IsSuffix.trans within ending) some

end Midway

section Steps

variable {final : Token} {σ₀ σ : State}

/-- Behind the first token of a list that is still ahead, less is ahead. -/
theorem length_lt_of_cons {t : Token} {ts us : List Token} (ending : t :: ts <:+ us) : ts.length < us.length :=
  ending.length_le

theorem tail_suffix {t : Token} {ts us : List Token} (ending : t :: ts <:+ us) : ts <:+ us :=
  (List.suffix_cons t ts).trans ending

theorem statement_progress (midway : Midway σ₀ σ 7) (ending : σ.window <:+ σ₀.window) :
    Progress σ₀ (σ.statement final) := by
  unfold State.statement
  cases window : σ.window with
  | nil => exact midway.fail (List.nil_suffix) (by decide)
  | cons t tail =>
    have whole : t :: tail <:+ σ₀.window := window ▸ ending
    have later := tail_suffix whole
    have shorter := length_lt_of_cons whole
    dsimp only
    split
    · refine midway.after whole (by decide) fun σ name last rest midway ending => ?_
      cases rest with
      | nil => exact midway.fail ending (by decide)
      | cons next rest =>
        have after := tail_suffix ending
        dsimp only
        split
        · exact midway.value rfl (fun _ => rfl) after (by decide)
        · split
          · exact midway.call rfl (tail_suffix after) (.inl (length_lt_of_cons after))
          · exact midway.fail ending (by decide)
    · refine midway.after whole (by decide) fun σ _ last rest midway ending => ?_
      exact midway.call rfl (tail_suffix ending) (.inl (length_lt_of_cons ending))
    · exact midway.call rfl later (.inl shorter)
    · refine midway.after whole (by decide) fun σ name last rest midway ending => ?_
      cases rest with
      | nil => exact midway.fail ending (by decide)
      | cons next rest =>
        dsimp only
        split
        · exact midway.value rfl (fun _ => rfl) (tail_suffix ending) (by decide)
        · exact midway.fail ending (by decide)
    · cases tail with
      | nil => exact midway.value rfl (fun _ => rfl) whole (by decide)
      | cons next rest =>
        dsimp only
        split
        · exact midway.value rfl (fun _ => rfl) later (by decide)
        · split
          · exact midway.value rfl (fun _ => rfl) whole (by decide)
          · exact midway.call rfl later (.inl shorter)
    · exact midway.enter rfl whole
    · cases tail with
      | nil => exact midway.call rfl whole (.inr (by decide))
      | cons next rest =>
        dsimp only
        split
        · refine midway.after later (by decide) fun σ params brace rest midway ending => ?_
          exact midway.enter rfl ending
        · split
          · exact midway.call rfl (tail_suffix later) (.inl (length_lt_of_cons later))
          · exact midway.call rfl whole (.inr (by decide))

theorem operand_progress (midway : Midway σ₀ σ 1) (ending : σ.window <:+ σ₀.window) :
    Progress σ₀ (σ.operand final) := by
  unfold State.operand
  cases window : σ.window with
  | nil => exact midway.fail (List.nil_suffix) (by decide)
  | cons t tail =>
    have whole : t :: tail <:+ σ₀.window := window ▸ ending
    have given : ∀ e, Progress σ₀ (σ.give (.expr e) (t :: tail)) := fun e =>
      midway.value rfl (fun _ => rfl) whole (by decide)
    dsimp only
    split
    · exact given _
    · split
      · exact given _
      · exact midway.fail whole (by decide)
    · exact given _
    · exact midway.call rfl (tail_suffix whole) (.inl (length_lt_of_cons whole))
    · refine midway.after whole (by decide) fun σ params brace rest midway ending => ?_
      exact midway.enter rfl ending
    · exact midway.fail whole (by decide)
    · exact midway.fail whole (by decide)

theorem climb_progress {level : Level} {left : Expr} {last : Token} {rest : List Token}
    (midway : Midway σ₀ σ 1) (whole : last :: rest <:+ σ₀.window) :
    Progress σ₀ (σ.climb level left last rest) := by
  have given : Progress σ₀ (σ.give (.expr left) (last :: rest)) :=
    midway.value rfl (fun _ => rfl) whole (by decide)
  unfold State.climb
  cases rest with
  | nil => exact given
  | cons t rest =>
    have later := tail_suffix whole
    dsimp only
    split
    · split
      · exact midway.call rfl (tail_suffix later) (.inl (length_lt_of_cons later))
      · cases rest with
        | nil => exact midway.call rfl (tail_suffix later) (.inl (length_lt_of_cons later))
        | cons u rest =>
          dsimp only
          split
          · exact midway.climb (tail_suffix later) (.inl (length_lt_of_cons later))
          · exact midway.call rfl (tail_suffix later) (.inl (length_lt_of_cons later))
    · exact given

theorem takeExpr_progress {e : Expr} {last : Token} {rest : List Token} {frame : Frame} {τ : State}
    (midway : Midway σ₀ σ 2) (whole : last :: rest <:+ σ₀.window)
    (taken : σ.takeExpr final e last rest frame = some τ) : Progress σ₀ τ := by
  have given : ∀ (σ : State) s last rest, Midway σ₀ σ 2 → last :: rest <:+ σ₀.window →
      Progress σ₀ (σ.give (.stmt s) (last :: rest)) :=
    fun σ s last rest midway ending => midway.value rfl (fun _ => rfl) ending (by decide)
  unfold State.takeExpr at taken
  cases frame with
  | climbing level =>
    cases taken
    exact midway.climb whole (.inr (by decide))
  | right level op left place =>
    cases taken
    exact midway.climb whole (.inr (by decide))
  | group =>
    cases taken
    refine midway.after whole (by decide) fun σ _ last rest midway ending => ?_
    exact midway.value rfl (fun _ => rfl) ending (by decide)
  | argument level callee place done =>
    cases taken
    cases rest with
    | nil => exact midway.fail whole (by decide)
    | cons t rest =>
      have later := tail_suffix whole
      dsimp only
      split
      · exact midway.call rfl (tail_suffix later) (.inl (length_lt_of_cons later))
      · split
        · exact midway.climb later (.inr (by decide))
        · exact midway.fail whole (by decide)
  | ending role place =>
    cases taken
    exact midway.after whole (by decide) given
  | printed place =>
    cases taken
    refine midway.after whole (by decide) fun σ _ last rest midway ending => ?_
    exact midway.after ending (by decide) given
  | condition place =>
    cases taken
    refine midway.after whole (by decide) fun σ _ brace rest midway ending => ?_
    exact midway.enter rfl ending
  | loop | literal | consequence | body => cases taken

theorem takeBlock_progress {b : Block} {last : Token} {rest : List Token} {frame : Frame} {τ : State}
    (midway : Midway σ₀ σ 2) (whole : last :: rest <:+ σ₀.window)
    (taken : σ.takeBlock final b last rest frame = some τ) : Progress σ₀ τ := by
  have given : ∀ s, Progress σ₀ (σ.give (.stmt s) (last :: rest)) :=
    fun s => midway.value rfl (fun _ => rfl) whole (by decide)
  unfold State.takeBlock at taken
  cases frame with
  | literal params place =>
    cases taken
    exact midway.value rfl (fun _ => rfl) whole (by decide)
  | consequence condition place =>
    cases taken
    cases rest with
    | nil => exact given _
    | cons next rest =>
      dsimp only
      split
      · refine midway.after (tail_suffix whole) (by decide) fun σ _ brace rest midway ending => ?_
        exact midway.enter rfl ending
      · exact given _
  | body body =>
    cases taken
    exact given _
  | loop | climbing | right | group | argument | ending | printed | condition => cases taken

/-- Recovery moves on unless it has to stay. -/
theorem recover_stays_or_moves (depth : Nat) (ts : List Token) :
    recover depth ts = ts ∧ stalled depth ts = true ∨ (recover depth ts).length < ts.length := by
  cases ts with
  | nil => exact .inl ⟨rfl, rfl⟩
  | cons t rest =>
    by_cases stays : t.kind = .symbol .rightBrace ∧ 0 < depth
    · refine .inl ⟨by rw [recover, if_pos stays], ?_⟩
      simp [stalled, stays]
    · exact .inr (recover_length_lt depth t rest stays)

/-- A loop takes in a statement, ends its block, or has nothing left to do. -/
theorem iterate_progress {opened : Option Location} {done : List Stmt} {τ : State}
    (control : σ.control = .loop opened done) (outermost : opened = none → σ.depth = 0)
    (moved : σ.iterate final opened done = some τ) : Progress σ τ := by
  obtain ⟨_, stack, window, errors, depth⟩ := σ
  obtain rfl : _ = Control.loop opened done := control
  cases window with
  | nil =>
    cases opened with
    | none => cases moved
    | some l =>
      cases moved
      exact ⟨.closes l rfl rfl, List.suffix_refl _, by simp [State.potential, Control.weight, stalled]⟩
  | cons t rest =>
    cases opened with
    | none =>
      cases moved
      refine ⟨.keeps rfl rfl, List.suffix_refl _, ?_⟩
      have free : stalled depth (t :: rest) = false := by simp [stalled, show depth = 0 from outermost rfl]
      simp [State.potential, Control.weight, free]
      omega
    | some l =>
      dsimp only [State.iterate] at moved
      by_cases closes : t.kind = .symbol .rightBrace
      · rw [if_pos closes] at moved
        cases moved
        refine ⟨.closes l rfl rfl, List.suffix_refl _, ?_⟩
        simp only [State.potential, Control.weight]
        split <;> omega
      · rw [if_neg closes] at moved
        cases moved
        refine ⟨.keeps rfl rfl, List.suffix_refl _, ?_⟩
        simp [State.potential, Control.weight, stalled, closes]
        omega

/-- A value is handed to a call, which is no loop. -/
theorem popped (σ : State) {frame : Frame} (plain : frame.loop? = none) (value : σ.control.loops = []) :
    Midway { σ with stack := frame :: σ.stack } σ 2 := by
  refine ⟨?_, rfl, ?_⟩
  · unfold State.loops
    rw [value]
    exact (List.filterMap_cons_none plain).symm
  · simp only [State.potential, List.length_cons]
    omega

/-- What one step does. -/
theorem step_progress {τ : State} (outermost : ∀ done, σ.control = .loop none done → σ.depth = 0)
    (moved : step final σ = some τ) : Progress σ τ := by
  obtain ⟨control, stack, window, errors, depth⟩ := σ
  cases control with
  | loop opened done =>
    refine iterate_progress rfl (fun none => outermost done (by rw [none])) moved
  | statement =>
    cases moved
    exact statement_progress ⟨rfl, rfl, Nat.le_refl _⟩ (List.suffix_refl _)
  | operand =>
    cases moved
    exact operand_progress ⟨rfl, rfl, Nat.le_refl _⟩ (List.suffix_refl _)
  | climb level left =>
    cases window with
    | nil => cases moved
    | cons last rest =>
      cases moved
      exact climb_progress ⟨rfl, rfl, Nat.le_refl _⟩ (List.suffix_refl _)
  | expr e =>
    cases stack with
    | nil => cases moved
    | cons frame stack =>
      cases window with
      | nil => cases moved
      | cons last rest =>
        have plain : frame.loop? = none := by
          cases frame <;> first | rfl | cases moved
        exact takeExpr_progress (popped ⟨.expr e, stack, last :: rest, errors, depth⟩ plain rfl)
          (List.suffix_refl _) moved
  | block b =>
    cases stack with
    | nil => cases moved
    | cons frame stack =>
      cases window with
      | nil => cases moved
      | cons last rest =>
        have plain : frame.loop? = none := by
          cases frame <;> first | rfl | cases moved
        exact takeBlock_progress (popped ⟨.block b, stack, last :: rest, errors, depth⟩ plain rfl)
          (List.suffix_refl _) moved
  | stmt s =>
    cases stack with
    | nil => cases moved
    | cons frame stack =>
      cases frame with
      | loop opened done =>
        cases window with
        | nil => cases moved
        | cons last rest =>
          cases moved
          refine ⟨.keeps rfl rfl, List.suffix_cons last rest, ?_⟩
          simp only [State.potential, Control.weight, List.length_cons]
          split <;> omega
      | _ => cases moved
  | failed error =>
    cases stack with
    | nil => cases moved
    | cons frame stack =>
      by_cases loops : ∃ opened done, frame = .loop opened done
      · obtain ⟨opened, done, rfl⟩ := loops
        cases moved
        refine ⟨.keeps rfl rfl, recover_suffix depth window, ?_⟩
        simp only [State.potential, Control.weight, List.length_cons]
        -- Where recovery stays, the loop is light, and the call that is gone pays for it.
        rcases recover_stays_or_moves depth window with ⟨stays, here⟩ | moves
        · rw [stays, here, if_pos rfl]
          omega
        · split <;> omega
      · have plain : frame.loop? = none := by
          cases frame with
          | loop opened done => exact absurd ⟨opened, done, rfl⟩ loops
          | _ => rfl
        have popped : τ = ⟨.failed error, stack, window, errors, depth⟩ := by
          cases frame with
          | loop opened done => exact absurd ⟨opened, done, rfl⟩ loops
          | _ => exact (Option.some.inj moved).symm
        subst popped
        refine ⟨.keeps ?_ rfl, List.suffix_refl _, ?_⟩
        · exact (List.filterMap_cons_none plain).symm
        · simp only [State.potential, Control.weight, List.length_cons]
          omega

end Steps

section Runs

variable {final : Token} {σ τ : State}

/-- Under the loops of the open blocks, as many as the depth says, there is the loop of
the program and nothing else. -/
def Balanced (σ : State) : Prop :=
  ∃ opened : List Location, σ.loops = opened.map some ++ [none] ∧ σ.depth = opened.length

theorem start_balanced (input : List Token) : Balanced (start input) := ⟨[], rfl, rfl⟩

theorem Balanced.depth_eq_openBlocks (balanced : Balanced σ) : σ.depth = σ.openBlocks := by
  obtain ⟨opened, loops, depth⟩ := balanced
  rw [State.openBlocks, loops, depth, List.countP_append, List.countP_map]
  exact (List.countP_eq_length.mpr fun _ _ => rfl).symm

/-- As long as the innermost loop is that of the program, no block is open. -/
theorem Balanced.depth_eq_zero (balanced : Balanced σ) (outermost : σ.loops.head? = some none) :
    σ.depth = 0 := by
  obtain ⟨opened, loops, depth⟩ := balanced
  rw [loops] at outermost
  cases opened with
  | nil => exact depth
  | cons l opened => cases outermost

theorem Balanced.nesting (balanced : Balanced σ) (nesting : Nesting σ τ) : Balanced τ := by
  obtain ⟨opened, loops, depth⟩ := balanced
  cases nesting with
  | keeps loops' depth' => exact ⟨opened, loops'.trans loops, depth'.trans depth⟩
  | opens l loops' depth' => exact ⟨l :: opened, by rw [loops', loops]; rfl, by rw [depth', depth]; rfl⟩
  | closes l loops' depth' =>
    rw [loops] at loops'
    cases opened with
    | nil => cases (List.cons.inj loops').1
    | cons l' opened =>
      refine ⟨opened, (List.cons.inj loops').2.symm, ?_⟩
      rw [depth', depth, List.length_cons]
      omega

theorem Balanced.step (balanced : Balanced σ) (moved : step final σ = some τ) : Progress σ τ ∧ Balanced τ := by
  have outermost : ∀ done, σ.control = .loop none done → σ.depth = 0 := by
    intro done control
    apply balanced.depth_eq_zero
    rw [State.loops, control]
    rfl
  have progress := step_progress outermost moved
  exact ⟨progress, balanced.nesting progress.nesting⟩

/-- At every moment of a parse the depth is the number of open blocks. -/
theorem Balanced.reaches (balanced : Balanced σ) (run : Reaches final σ τ) : Balanced τ := by
  unfold Reaches at run
  induction run with
  | refl => exact balanced
  | tail _ moved ih => exact (ih.step moved).2

/-- Over any number of steps the cursor does not move back and the potential goes down. -/
theorem Balanced.advances (balanced : Balanced σ) (run : Advances final σ τ) :
    τ.window <:+ σ.window ∧ τ.potential < σ.potential ∧ Balanced τ := by
  unfold Advances at run
  induction run with
  | single moved =>
    obtain ⟨progress, after⟩ := balanced.step moved
    exact ⟨progress.window, progress.potential, after⟩
  | tail _ moved ih =>
    obtain ⟨window, potential, before⟩ := ih
    obtain ⟨progress, after⟩ := before.step moved
    exact ⟨progress.window.trans window, Nat.lt_trans progress.potential potential, after⟩

/-- When the same loop comes round again, the cursor has moved on. -/
theorem Balanced.loop_moves {opened : Option Location} {done done' : List Stmt} (balanced : Balanced σ)
    (run : Advances final σ τ) (control : σ.control = .loop opened done)
    (control' : τ.control = .loop opened done') (same : τ.stack = σ.stack) :
    τ.window <:+ σ.window ∧ τ.window.length < σ.window.length := by
  obtain ⟨ending, potential, after⟩ := balanced.advances run
  refine ⟨ending, ?_⟩
  have loops : τ.loops = σ.loops := by
    unfold State.loops
    rw [control, control', same]
    rfl
  have depth : τ.depth = σ.depth := by
    rw [after.depth_eq_openBlocks, balanced.depth_eq_openBlocks, State.openBlocks, State.openBlocks, loops]
  unfold State.potential at potential
  rw [control, control', same, depth] at potential
  apply Nat.lt_of_not_le
  intro still
  -- A loop that has not moved would weigh the same as before.
  have here : τ.window = σ.window := ending.eq_of_length_le still
  rw [here] at potential
  exact Nat.lt_irrefl _ potential

end Runs

end ImpToC.Parse.Machine
