import Mathlib.Data.List.Infix
import ImpToC.Proofs.Stepwise.Agreement
import ImpToC.Proofs.Stepwise.Strides

/-!
On which brace a block closes. As long as its statements can be read, every brace that opens
a block is paired with the one that closes it, so what stands between the braces of a block
is balanced. Recovery can break the pairing in two ways: it passes over a brace that opens a
block without counting it, or it stands at the brace that closed an inner block and takes it
for the end of the outer one. Each of them leaves a brace too much behind for good, so the
block closes on its own brace exactly if neither happens.
-/
namespace ImpToC.Parse

/-- The last token of what was read and the tokens behind it. -/
def Outcome.position? {α : Type} : Outcome α → Option (Token × List Token)
  | .parsed _ last rest => some (last, rest)
  | .failed _ _ => none

theorem Outcome.eq_parsed_of_position? {α : Type} {outcome : Outcome α} {last : Token} {rest : List Token}
    (position : outcome.position? = some (last, rest)) : ∃ value, outcome = .parsed value last rest := by
  cases outcome with
  | failed error resume => cases position
  | parsed value last' rest' =>
    cases position
    exact ⟨value, rfl⟩

namespace Machine

/-- How many braces of a kind there are. -/
def braces (brace : Symbol) (ts : List Token) : Nat := ts.countP (·.kind = .symbol brace)

section Counting

variable {brace : Symbol} {ts us : List Token} {t : Token}

theorem braces_append : braces brace (ts ++ us) = braces brace ts + braces brace us :=
  List.countP_append

theorem braces_singleton_self (same : t.kind = .symbol brace) : braces brace [t] = 1 := by
  simp [braces, same]

theorem braces_eq_zero (other : ∀ t ∈ ts, t.kind ≠ .symbol brace) : braces brace ts = 0 := by
  simpa [braces, List.countP_eq_zero] using other

theorem braces_eq_zero_iff : braces brace ts = 0 ↔ ¬ ∃ t ∈ ts, t.kind = .symbol brace := by
  simp [braces, List.countP_eq_zero]

end Counting

theorem Plain.not_left {t : Token} (plain : Plain t) : t.kind ≠ .symbol .leftBrace := by
  intro same
  exact plain (by simp [same])

theorem Plain.not_right {t : Token} (plain : Plain t) : t.kind ≠ .symbol .rightBrace := by
  intro same
  exact plain (by simp [same])

/-- No brace closes what was not opened before. -/
def Nested (ts : List Token) : Prop :=
  ∀ front, front <+: ts → braces .rightBrace front ≤ braces .leftBrace front

/-- Every brace has its partner. -/
structure BraceBalanced (ts : List Token) : Prop where
  nested : Nested ts
  paired : braces .leftBrace ts = braces .rightBrace ts

instance (ts : List Token) : Decidable (Nested ts) :=
  decidable_of_iff (∀ front ∈ ts.inits, braces .rightBrace front ≤ braces .leftBrace front)
    (forall_congr' fun front => imp_congr_left (List.mem_inits front ts))

instance (ts : List Token) : Decidable (BraceBalanced ts) :=
  decidable_of_iff (Nested ts ∧ braces .leftBrace ts = braces .rightBrace ts)
    ⟨fun both => ⟨both.1, both.2⟩, fun balanced => ⟨balanced.nested, balanced.paired⟩⟩

namespace Nested

variable {ts us : List Token}

theorem nil : Nested [] := by
  intro front ending
  rw [List.prefix_nil.mp ending]
  exact Nat.le_refl 0

theorem shorten (nested : Nested us) (front : ts <+: us) : Nested ts :=
  fun _ shorter => nested _ (shorter.trans front)

theorem append (nested : Nested ts) (opening : ∀ t ∈ us, t.kind ≠ .symbol .rightBrace) :
    Nested (ts ++ us) := by
  intro front shorter
  rcases List.prefix_or_prefix_of_prefix shorter (List.prefix_append ts us) with before | ⟨middle, rfl⟩
  · exact nested front before
  · have beyond : middle <+: us := (List.prefix_append_right_inj ts).mp shorter
    have unclosed : braces .rightBrace middle = 0 := braces_eq_zero fun t mem => opening t (beyond.subset mem)
    have whole := nested ts (List.prefix_refl ts)
    rw [braces_append, braces_append]
    omega

/-- A brace closes one that is still open. -/
theorem concat {brace : Token} (nested : Nested ts) (closes : brace.kind = .symbol .rightBrace)
    (unpaired : braces .rightBrace ts < braces .leftBrace ts) : Nested (ts ++ [brace]) := by
  intro front shorter
  rcases List.prefix_concat_iff.mp shorter with rfl | before
  · rw [braces_append, braces_append, braces_singleton_self closes]
    omega
  · exact nested front before

end Nested

/-- In a block recovery passes over no brace that closes one. -/
theorem recover_passes {depth : Nat} (deep : 0 < depth) (ts : List Token) :
    ∃ skipped, ts = skipped ++ recover depth ts ∧ ∀ t ∈ skipped, t.kind ≠ .symbol .rightBrace := by
  fun_induction recover depth ts with
  | case1 => exact ⟨[], rfl, by simp⟩
  | case2 => exact ⟨[], rfl, by simp⟩
  | case3 t rest moves semicolon => exact ⟨[t], rfl, by simp [semicolon]⟩
  | case4 t rest moves _ opens =>
    refine ⟨[t], rfl, ?_⟩
    simpa [deep] using moves
  | case5 t rest moves _ _ ih =>
    obtain ⟨skipped, parted, other⟩ := ih
    refine ⟨t :: skipped, congrArg (t :: ·) parted, ?_⟩
    simp only [List.mem_cons, forall_eq_or_imp]
    exact ⟨fun closes => moves ⟨closes, deep⟩, other⟩

/-- Where there is text left, recovery stays only at a brace that closes a block. -/
theorem closes_of_recover_eq {depth : Nat} {t : Token} {rest : List Token}
    (stays : recover depth (t :: rest) = t :: rest) : t.kind = .symbol .rightBrace := by
  by_contra moves
  have shorter := recover_length_lt depth t rest (fun both => moves both.1)
  rw [stays] at shorter
  exact Nat.lt_irrefl _ shorter

/-- An error has come to the loop that will record it. -/
def State.Recovering (σ : State) : Prop :=
  (∃ error, σ.control = .failed error) ∧ ∃ opened done below, σ.stack = .loop opened done :: below

/-- The next step breaks the pairing of braces. -/
inductive State.LosesBrace (σ : State) : Prop where
  /-- Recovery passes over a brace that opens a block. -/
  | passes {skipped : List Token} {brace : Token} (recovering : σ.Recovering)
      (parted : σ.unread = skipped ++ recover σ.depth σ.window) (skips : brace ∈ skipped)
      (opens : brace.kind = .symbol .leftBrace)
  /-- Recovery goes on with a brace that has closed an inner block. -/
  | givesBack {brace : Token} (recovering : σ.Recovering)
      (parted : recover σ.depth σ.window = brace :: σ.unread) (closed : brace.kind = .symbol .rightBrace)

/-- What is lost before and after the next step. -/
structure State.Loss (σ : State) (lost lost' : Nat) : Prop where
  grows : lost ≤ lost'
  kept_iff : lost' = lost ↔ ¬ σ.LosesBrace

theorem State.Loss.refl {σ : State} (keeps : ¬ σ.LosesBrace) (lost : Nat) : σ.Loss lost lost :=
  ⟨Nat.le_refl lost, iff_of_true rfl keeps⟩

theorem State.LosesBrace.recovering {σ : State} (loses : σ.LosesBrace) : σ.Recovering := by
  cases loses with
  | passes recovering => exact recovering
  | givesBack recovering => exact recovering

theorem State.not_losesBrace_of_spent {σ : State} (window : σ.window = []) : ¬ σ.LosesBrace := by
  intro loses
  cases loses with
  | passes _ parted skips =>
    have unread : σ.unread = [] := List.suffix_nil.mp (window ▸ σ.unread_suffix)
    rw [unread] at parted
    rw [(List.append_eq_nil_iff.mp parted.symm).1] at skips
    cases skips
  | givesBack _ parted =>
    rw [window] at parted
    cases parted

/-- At the bottom of the stack there is a loop. -/
def Grounded (stack : List Frame) : Prop := ∀ frame, stack.getLast? = some frame → frame.loop? ≠ none

namespace Grounded

variable {stack below : List Frame}

theorem suffix (grounded : Grounded stack) (ending : below <:+ stack) : Grounded below := by
  obtain ⟨calls, rfl⟩ := ending
  intro frame last
  apply grounded frame
  rw [List.getLast?_append, last]
  rfl

theorem extend (grounded : Grounded below) (remains : below ≠ []) (ending : below <:+ stack) : Grounded stack := by
  obtain ⟨calls, rfl⟩ := ending
  intro frame last
  apply grounded frame
  rw [List.getLast?_append, List.getLast?_eq_some_getLast remains] at last
  rw [List.getLast?_eq_some_getLast remains]
  exact last

theorem push (grounded : Grounded stack) (opened : Option Location) (done : List Stmt) :
    Grounded (.loop opened done :: stack) := by
  cases stack with
  | nil =>
    intro frame last
    obtain rfl : Frame.loop opened done = frame := Option.some.inj last
    simp [Frame.loop?]
  | cons frame stack => exact grounded.extend (List.cons_ne_nil frame stack) (List.suffix_cons _ _)

theorem eq_nil (grounded : Grounded stack) (noLoops : stack.filterMap Frame.loop? = []) : stack = [] := by
  by_contra calls
  have last := List.getLast?_eq_some_getLast calls
  have plain := List.filterMap_eq_nil_iff.mp noLoops _ (List.getLast_mem calls)
  exact grounded _ last plain

end Grounded

/-- All loops are those of blocks, and the depth counts them from where the outermost one
was entered. -/
def Opened (depth : Nat) (σ : State) : Prop :=
  ∃ opened : List Location, σ.loops = opened.map some ∧ σ.depth = depth + opened.length

section Blocks

variable {final : Token} {depth : Nat} {σ τ : State}

theorem Opened.nesting (inside : Opened depth σ) (nesting : Nesting σ τ) : Opened depth τ := by
  obtain ⟨opened, loops, count⟩ := inside
  cases nesting with
  | keeps loops' depth' => exact ⟨opened, loops'.trans loops, depth'.trans count⟩
  | opens l loops' depth' =>
    refine ⟨l :: opened, by rw [loops', loops]; rfl, ?_⟩
    rw [depth', count, List.length_cons]
    omega
  | closes l loops' depth' =>
    rw [loops] at loops'
    cases opened with
    | nil => cases loops'
    | cons l' opened =>
      refine ⟨opened, (List.cons.inj loops').2.symm, ?_⟩
      rw [depth', count, List.length_cons]
      omega

theorem Opened.step (inside : Opened depth σ) (moved : step final σ = some τ) : Progress σ τ ∧ Opened depth τ := by
  have inBlock : ∀ done, σ.control = .loop none done → σ.depth = 0 := by
    intro done control
    obtain ⟨opened, loops, _⟩ := inside
    rw [State.loops, control] at loops
    cases opened with
    | nil => cases loops
    | cons l opened => cases (List.cons.inj loops).1
  have progress := step_progress inBlock moved
  exact ⟨progress, inside.nesting progress.nesting⟩

/-- Within a block there is a loop to come back to. -/
theorem Opened.loops_ne_nil (inside : Opened depth σ) (deep : depth < σ.depth) : σ.loops ≠ [] := by
  obtain ⟨opened, loops, count⟩ := inside
  intro none
  rw [none] at loops
  rw [List.map_eq_nil_iff.mp loops.symm] at count
  exact absurd deep (by simp [count])

/-- The loop that is left to itself at the depth of the outermost block is that of the block. -/
theorem Opened.stack_eq_nil {l : Location} {done : List Stmt} (inside : Opened depth σ)
    (grounded : Grounded σ.stack) (control : σ.control = .loop (some l) done) (outermost : σ.depth = depth + 1) :
    σ.stack = [] := by
  obtain ⟨opened, loops, count⟩ := inside
  obtain ⟨l', rfl⟩ : ∃ l', opened = [l'] := List.length_eq_one_iff.mp (by omega)
  rw [State.loops, control] at loops
  exact grounded.eq_nil (List.cons.inj loops).2

theorem Stride.errors_grow (stride : Stride final σ τ) : σ.errors <+: τ.errors := by
  cases stride with
  | proceeds _ _ _ proceeds =>
    cases proceeds with
    | within _ _ _ errors => exact errors ▸ List.prefix_refl _
    | into _ _ _ _ errors => exact errors ▸ List.prefix_refl _
  | recovers _ _ next =>
    subst next
    exact List.prefix_append _ _
  | begins _ _ next | closes _ _ _ next | runsOut _ _ next | adds _ _ _ next | givesUp _ _ _ next =>
    subst next
    exact List.prefix_refl _

theorem Stride.grounded (stride : Stride final σ τ) (grounded : Grounded σ.stack) (loops : σ.loops ≠ []) :
    Grounded τ.stack := by
  cases stride with
  | begins control goesOn next =>
    subst next
    exact grounded.push _ _
  | @proceeds below value alive calls proceeds =>
    have ending : below <:+ σ.stack := by
      rcases calls with same | ⟨frame, _, taken⟩
      · exact same ▸ List.suffix_refl _
      · exact taken ▸ List.suffix_cons _ _
    have remains : below ≠ [] := by
      rintro rfl
      apply loops
      rw [State.loops, value]
      rcases calls with same | ⟨frame, plain, taken⟩
      · rw [same]
        rfl
      · rw [taken]
        exact List.filterMap_cons_none plain
    cases proceeds with
    | within _ _ _ _ _ waiting => exact (grounded.suffix ending).extend remains waiting
    | into _ _ _ _ _ _ waiting => exact (grounded.suffix ending).extend remains waiting
  | closes _ _ _ next | runsOut _ _ next =>
    subst next
    exact grounded
  | adds _ stack _ next | givesUp _ _ stack next | recovers _ stack next =>
    subst next
    rw [stack] at grounded
    exact grounded.suffix (List.suffix_cons _ _)

end Blocks

/-- The machine that is to read a block by itself, behind the brace. -/
def enter (depth : Nat) (brace : Token) (rest : List Token) : State :=
  ⟨.loop (some brace.location) [], [], rest, [], depth + 1⟩

/-- The machine is within the block that is entered at the depth and has `rest` behind its
brace. -/
structure Inside (final : Token) (rest : List Token) (depth : Nat) (σ : State) : Prop where
  inOrder : InOrder final σ.window
  ending : σ.window <:+ rest
  opened : Opened depth σ
  deep : depth < σ.depth
  grounded : Grounded σ.stack

/-- The used tokens of the block, in which the braces that are not paired are those of the
open blocks and the ones that were lost. -/
structure Tallied (rest used : List Token) (depth lost : Nat) (σ : State) : Prop where
  read : rest = used ++ σ.unread
  nested : Nested used
  count : braces .leftBrace used + depth + 1 = braces .rightBrace used + σ.depth + lost

/-- How far the block is read. Once the text has run out it will not be closed. -/
inductive Stage (final : Token) (rest : List Token) (depth lost : Nat) (σ : State) : Prop where
  | inside {used : List Token} (inside : Inside final rest depth σ) (tallied : Tallied rest used depth lost σ)
  | closed {b : Block} {brace : Token} {text after : List Token} (control : σ.control = .block b)
      (stack : σ.stack = []) (window : σ.window = brace :: after) (closes : brace.kind = .symbol .rightBrace)
      (read : rest = text ++ brace :: after) (nested : Nested text)
      (count : braces .leftBrace text = braces .rightBrace text + lost)
  | spent (opened : Opened depth σ) (window : σ.window = [])

section Tally

variable {final : Token} {rest used : List Token} {depth lost : Nat} {σ τ : State}

theorem Inside.step (inside : Inside final rest depth σ) (moved : step final σ = some τ) (deep : depth < τ.depth) :
    Inside final rest depth τ := by
  obtain ⟨progress, opened⟩ := inside.opened.step moved
  have loops := inside.opened.loops_ne_nil inside.deep
  have stride := step_stride inside.inOrder moved
  exact ⟨inside.inOrder.suffix progress.window, progress.window.trans inside.ending, opened, deep,
    stride.grounded inside.grounded loops⟩

/-- Tokens are used or passed over. -/
theorem Tallied.use {middle : List Token} {lost' : Nat} (tallied : Tallied rest used depth lost σ)
    (unread : σ.unread = middle ++ τ.unread) (opening : ∀ t ∈ middle, t.kind ≠ .symbol .rightBrace)
    (count : τ.depth + lost' = σ.depth + lost + braces .leftBrace middle) :
    Tallied rest (used ++ middle) depth lost' τ := by
  have before := tallied.count
  have unclosed := braces_eq_zero opening
  refine ⟨?_, tallied.nested.append opening, ?_⟩
  · rw [List.append_assoc, ← unread]
    exact tallied.read
  · rw [braces_append, braces_append]
    omega

/-- An inner block is closed. -/
theorem Tallied.close {brace : Token} (tallied : Tallied rest used depth lost σ)
    (unread : σ.unread = brace :: τ.unread) (closes : brace.kind = .symbol .rightBrace)
    (inner : depth + 1 < σ.depth) (less : τ.depth = σ.depth - 1) :
    Tallied rest (used ++ [brace]) depth lost τ := by
  have before := tallied.count
  have one := braces_singleton_self closes
  have none : braces .leftBrace [brace] = 0 := braces_eq_zero (by simp [closes])
  refine ⟨?_, tallied.nested.concat closes (by omega), ?_⟩
  · rw [List.append_assoc, List.singleton_append, ← unread]
    exact tallied.read
  · rw [braces_append, braces_append]
    omega

/-- A brace that closed an inner block is given back. -/
theorem Tallied.giveBack {brace : Token} (tallied : Tallied rest used depth lost σ)
    (ending : brace :: σ.unread <:+ rest) (unread : τ.unread = brace :: σ.unread)
    (closed : brace.kind = .symbol .rightBrace) (same : τ.depth = σ.depth) :
    ∃ front, Tallied rest front depth (lost + 1) τ := by
  obtain ⟨front, parted⟩ := ending
  have both : used ++ σ.unread = front ++ [brace] ++ σ.unread := by
    rw [← tallied.read, List.append_assoc]
    exact parted.symm
  have used_eq : used = front ++ [brace] := List.append_cancel_right both
  have before := tallied.count
  have one := braces_singleton_self closed
  have none : braces .leftBrace [brace] = 0 := braces_eq_zero (by simp [closed])
  rw [used_eq, braces_append, braces_append] at before
  refine ⟨front, by rw [unread, parted], ?_, by omega⟩
  exact tallied.nested.shorten (used_eq ▸ List.prefix_append _ _)

/-- The opening braces among the tokens that recovery passes over are lost. -/
theorem Tallied.pass {middle : List Token} (tallied : Tallied rest used depth lost σ) (recovering : σ.Recovering)
    (parted : σ.unread = middle ++ recover σ.depth σ.window)
    (opening : ∀ t ∈ middle, t.kind ≠ .symbol .rightBrace)
    (again : τ.unread = recover σ.depth σ.window) (same : τ.depth = σ.depth) :
    ∃ used' lost', σ.Loss lost lost' ∧ Tallied rest used' depth lost' τ := by
  have loses_iff : (∃ brace ∈ middle, brace.kind = .symbol .leftBrace) ↔ σ.LosesBrace := by
    constructor
    · rintro ⟨brace, skips, opens⟩
      exact .passes recovering parted skips opens
    · intro loses
      cases loses with
      | @passes skipped brace _ parted' skips opens =>
        rw [List.append_cancel_right (parted.symm.trans parted')]
        exact ⟨brace, skips, opens⟩
      | @givesBack brace _ back closed =>
        have length := congrArg List.length parted
        rw [back, List.length_append, List.length_cons] at length
        omega
  refine ⟨used ++ middle, lost + braces .leftBrace middle, ⟨Nat.le_add_right _ _, ?_⟩, ?_⟩
  · rw [Nat.add_eq_left, braces_eq_zero_iff, loses_iff]
  · exact tallied.use (by rw [again, parted]) opening (by omega)

theorem Tallied.recover {error : Diagnostic} (tallied : Tallied rest used depth lost σ)
    (inside : Inside final rest depth σ) (control : σ.control = .failed error) (recovering : σ.Recovering)
    (again : τ.unread = recover σ.depth σ.window) (same : τ.depth = σ.depth) :
    ∃ used' lost', σ.Loss lost lost' ∧ Tallied rest used' depth lost' τ := by
  obtain ⟨skipped, parted, opening⟩ := recover_passes (Nat.zero_lt_of_lt inside.deep) σ.window
  rcases σ.unread_of_failed control with whole | ⟨t, current⟩
  · exact tallied.pass recovering (whole.trans parted) opening again same
  · cases skipped with
    | nil =>
      have back : Parse.recover σ.depth σ.window = t :: σ.unread := parted.symm.trans current
      have closed : t.kind = .symbol .rightBrace := closes_of_recover_eq (current ▸ back)
      obtain ⟨front, tallied⟩ := tallied.giveBack (current ▸ inside.ending) (again.trans back) closed same
      have loses : σ.LosesBrace := .givesBack recovering back closed
      have loss : σ.Loss lost (lost + 1) :=
        ⟨Nat.le_succ lost, iff_of_false (Nat.succ_ne_self lost) (not_not_intro loses)⟩
      exact ⟨front, lost + 1, loss, tallied⟩
    | cons t' skipped =>
      have later : σ.unread = skipped ++ Parse.recover σ.depth σ.window :=
        (List.cons.inj (current.symm.trans parted)).2
      exact tallied.pass recovering later (fun t mem => opening t (List.mem_cons_of_mem t' mem)) again same

/-- A step that has nothing to recover from loses nothing. -/
theorem Tallied.advance {middle : List Token} (tallied : Tallied rest used depth lost σ)
    (inside : Inside final rest depth σ) (moved : step final σ = some τ) (calm : ¬ σ.Recovering)
    (unread : σ.unread = middle ++ τ.unread) (opening : ∀ t ∈ middle, t.kind ≠ .symbol .rightBrace)
    (count : τ.depth = σ.depth + braces .leftBrace middle) :
    ∃ lost', σ.Loss lost lost' ∧ Stage final rest depth lost' τ := by
  have deep := inside.deep
  have keeps : ¬ σ.LosesBrace := fun loses => calm loses.recovering
  exact ⟨lost, .refl keeps lost,
    .inside (inside.step moved (by omega)) (tallied.use unread opening (by omega))⟩

/-- A block ends: the one that the tally is about, or one in it. -/
theorem Tallied.leave {l : Location} {done : List Stmt} {brace : Token} {after : List Token}
    (tallied : Tallied rest used depth lost σ) (inside : Inside final rest depth σ)
    (moved : step final σ = some τ) (control : σ.control = .loop (some l) done)
    (window : σ.window = brace :: after) (closes : brace.kind = .symbol .rightBrace)
    (next : τ = { σ with control := .block (.mk done l), depth := σ.depth - 1 }) :
    Stage final rest depth lost τ := by
  have deep := inside.deep
  have unread : σ.unread = brace :: after := by
    unfold State.unread
    rw [control]
    exact window
  have count := tallied.count
  by_cases outermost : σ.depth = depth + 1
  · have stack : σ.stack = [] := inside.opened.stack_eq_nil inside.grounded control outermost
    subst next
    exact .closed rfl stack window closes (unread ▸ tallied.read) tallied.nested (by omega)
  · have less : τ.depth = σ.depth - 1 := by rw [next]
    have used : σ.unread = brace :: τ.unread := by
      rw [unread, next]
      change _ = brace :: σ.window.tail
      rw [window]
      rfl
    exact .inside (inside.step moved (by omega)) (tallied.close used closes (by omega) less)

/-- A block that is read by itself is where the machine stops. -/
theorem stack_ne_nil_of_block {b : Block} (moved : step final σ = some τ) (control : σ.control = .block b) :
    σ.stack ≠ [] := by
  obtain ⟨_, _, window, errors, depth⟩ := σ
  rintro ⟨⟩
  cases control
  cases moved

theorem Stage.inOrder (stage : Stage final rest depth lost σ) (moved : step final σ = some τ) :
    InOrder final σ.window := by
  cases stage with
  | inside inside => exact inside.inOrder
  | closed control stack => exact absurd stack (stack_ne_nil_of_block moved control)
  | spent _ window =>
    rw [window]
    exact List.pairwise_singleton _ _

theorem Stage.of_spent (opened : Opened depth σ) (window : σ.window = []) (moved : step final σ = some τ) :
    ∃ lost', σ.Loss lost lost' ∧ Stage final rest depth lost' τ := by
  obtain ⟨progress, opened'⟩ := opened.step moved
  have spent : τ.window = [] := List.suffix_nil.mp (window ▸ progress.window)
  exact ⟨lost, .refl (State.not_losesBrace_of_spent window) lost, .spent opened' spent⟩

/-- Each step goes on reading the block, closes it or runs out of text, and the braces used in it
stay tallied. The count of lost braces grows exactly if the step loses one. -/
theorem Stage.step (stage : Stage final rest depth lost σ) (moved : step final σ = some τ) :
    ∃ lost', σ.Loss lost lost' ∧ Stage final rest depth lost' τ := by
  cases stage with
  | closed control stack => exact absurd stack (stack_ne_nil_of_block moved control)
  | spent opened window => exact of_spent opened window moved
  | @inside used inside tallied =>
    cases step_stride inside.inOrder moved with
    | @begins opened done control goesOn next =>
      have calm : ¬ σ.Recovering := by simp [State.Recovering, control]
      have unread : σ.unread = [] ++ τ.unread := by
        rw [next]
        unfold State.unread
        rw [control]
        rfl
      exact tallied.advance inside moved calm unread (by simp) (by rw [next]; rfl)
    | proceeds value alive calls proceeds =>
      have calm : ¬ σ.Recovering := fun recovering => recovering.1.elim alive
      cases proceeds with
      | @within middle plain unread inside' errors depth' waiting told =>
        have none : braces .leftBrace middle = 0 := braces_eq_zero fun t mem => (plain t mem).not_left
        exact tallied.advance inside moved calm unread (fun t mem => (plain t mem).not_right) (by omega)
      | @into middle brace plain opens unread control errors depth' waiting =>
        have none : braces .leftBrace middle = 0 := braces_eq_zero fun t mem => (plain t mem).not_left
        have one : braces .leftBrace [brace] = 1 := braces_singleton_self opens
        rw [List.append_cons] at unread
        refine tallied.advance inside moved calm unread ?_ ?_
        · intro t mem
          rcases List.mem_append.mp mem with before | last
          · exact (plain t before).not_right
          · simp [List.mem_singleton.mp last, opens]
        · rw [braces_append]
          omega
    | @closes l done brace after control window closes next =>
      have calm : ¬ σ.Recovering := by simp [State.Recovering, control]
      have keeps : ¬ σ.LosesBrace := fun loses => calm loses.recovering
      exact ⟨lost, .refl keeps lost, tallied.leave inside moved control window closes next⟩
    | runsOut control window next => exact of_spent inside.opened window moved
    | @adds s opened done below last after control stack window next =>
      have calm : ¬ σ.Recovering := by simp [State.Recovering, control]
      have unread : σ.unread = [] ++ τ.unread := by
        rw [next]
        unfold State.unread
        rw [control, window]
        rfl
      exact tallied.advance inside moved calm unread (by simp) (by rw [next]; rfl)
    | @givesUp error frame below control plain stack next =>
      have calm : ¬ σ.Recovering := by
        rintro ⟨_, opened, done, _, other⟩
        obtain ⟨rfl, _⟩ := List.cons.inj (stack.symm.trans other)
        cases plain
      have unread : σ.unread = [] ++ τ.unread := by
        rw [next]
        rfl
      exact tallied.advance inside moved calm unread (by simp) (by rw [next]; rfl)
    | @recovers error opened done below control stack next =>
      have recovering : σ.Recovering := ⟨⟨error, control⟩, opened, done, below, stack⟩
      have again : τ.unread = recover σ.depth σ.window := by rw [next]; rfl
      have same : τ.depth = σ.depth := by rw [next]
      obtain ⟨used', lost', loss, tallied'⟩ := tallied.recover inside control recovering again same
      exact ⟨lost', loss, .inside (inside.step moved (same ▸ inside.deep)) tallied'⟩

/-- So in a whole run the count of lost braces never falls, and it stays where it was if no state
on the way loses one. -/
theorem Stage.reaches (stage : Stage final rest depth lost σ) (run : Reaches final σ τ) :
    ∃ lost', lost ≤ lost' ∧ Stage final rest depth lost' τ ∧
      ((∀ μ, Reaches final σ μ → ¬ μ.LosesBrace) → lost' = lost) := by
  induction run with
  | refl => exact ⟨lost, Nat.le_refl lost, stage, fun _ => rfl⟩
  | @tail ν τ ran moved ih =>
    obtain ⟨lost', grows, stage', kept⟩ := ih
    obtain ⟨lost'', loss, stage''⟩ := stage'.step moved
    refine ⟨lost'', Nat.le_trans grows loss.grows, stage'', fun keeps => ?_⟩
    exact (loss.kept_iff.mpr (keeps ν ran)).trans (kept keeps)

theorem Stage.enter (inOrder : InOrder final rest) (depth : Nat) (brace : Token) :
    Stage final rest depth 0 (enter depth brace rest) := by
  have tallied : Tallied rest [] depth 0 (Machine.enter depth brace rest) := ⟨rfl, .nil, rfl⟩
  have opened : Opened depth (Machine.enter depth brace rest) := ⟨[brace.location], rfl, rfl⟩
  have grounded : Grounded (Machine.enter depth brace rest).stack := by
    intro frame last
    cases last
  exact .inside ⟨inOrder, List.suffix_refl rest, opened, Nat.lt_succ_self depth, grounded⟩ tallied

/-- Errors are never taken back. -/
theorem Stage.errors_grow (stage : Stage final rest depth lost σ) (run : Reaches final σ τ) :
    σ.errors <+: τ.errors := by
  induction run with
  | refl => exact List.prefix_refl _
  | @tail ν τ ran moved ih =>
    obtain ⟨_, _, stage', _⟩ := stage.reaches ran
    exact ih.trans (step_stride (stage'.inOrder moved) moved).errors_grow

theorem errors_ne_nil_of_recovering (recovering : σ.Recovering) (moved : step final σ = some τ) :
    τ.errors ≠ [] := by
  obtain ⟨⟨error, control⟩, opened, done, below, stack⟩ := recovering
  obtain ⟨_, _, window, errors, depth⟩ := σ
  cases control
  cases stack
  cases moved
  exact List.append_ne_nil_of_right_ne_nil _ (List.cons_ne_nil _ _)

/-- After a state that breaks the pairing the block can only be closed with a brace lost and
an error recorded. -/
theorem Stage.lost_pos {b : Block} (stage : Stage final rest depth lost σ) (loses : σ.LosesBrace)
    (run : Reaches final σ τ) (closed : τ.control = .block b) :
    τ.errors ≠ [] ∧ ∃ lost', 0 < lost' ∧ Stage final rest depth lost' τ := by
  rcases run.cases_head with rfl | ⟨ν, moved, ran⟩
  · obtain ⟨⟨error, control⟩, _⟩ := loses.recovering
    rw [closed] at control
    cases control
  · obtain ⟨lost', loss, stage'⟩ := stage.step moved
    obtain ⟨lost'', grows, stage'', _⟩ := stage'.reaches ran
    have recorded := errors_ne_nil_of_recovering loses.recovering moved
    have kept := stage'.errors_grow ran
    have more : lost' ≠ lost := fun same => loss.kept_iff.mp same loses
    have grows' := loss.grows
    refine ⟨fun none => recorded (List.prefix_nil.mp (none ▸ kept)), lost'', by omega, stage''⟩

/-- What is lost is what the text of the block has too much. -/
theorem Stage.text {b : Block} {brace : Token} {after : List Token} (stage : Stage final rest depth lost σ)
    (control : σ.control = .block b) (stack : σ.stack = []) (window : σ.window = brace :: after) :
    ∃ text, rest = text ++ brace :: after ∧ brace.kind = .symbol .rightBrace ∧ Nested text ∧
      braces .leftBrace text = braces .rightBrace text + lost := by
  cases stage with
  | inside inside tallied =>
    have loops := inside.opened.loops_ne_nil inside.deep
    rw [State.loops, control, stack] at loops
    exact absurd rfl loops
  | @closed b' brace' text after' control' stack' window' closes read nested count =>
    obtain ⟨rfl, rfl⟩ := List.cons.inj (window.symm.trans window')
    exact ⟨text, read, closes, nested, count⟩
  | spent opened spent =>
    rw [window] at spent
    cases spent

/-- From a state that breaks the pairing a block is closed only with an error recorded and
with a brace that is not its own. -/
theorem Stage.spoiled {b : Block} {brace : Token} {text after : List Token}
    (stage : Stage final rest depth lost σ) (parted : rest = text ++ brace :: after) (loses : σ.LosesBrace)
    (run : Reaches final σ τ) (control : τ.control = .block b) (stack : τ.stack = [])
    (window : τ.window = brace :: after) : τ.errors ≠ [] ∧ ¬ BraceBalanced text := by
  obtain ⟨recorded, lost', positive, stage'⟩ := stage.lost_pos loses run control
  obtain ⟨text', parted', _, _, count⟩ := stage'.text control stack window
  obtain rfl : text = text' := List.append_cancel_right (parted.symm.trans parted')
  refine ⟨recorded, fun balanced => ?_⟩
  have paired := balanced.paired
  omega

end Tally

/-- The machine stops where the parser has the block. -/
theorem enter_reaches {final brace last : Token} {depth : Nat} {rest after : List Token}
    (read : (block final depth brace rest).val.outcome.position? = some (last, after)) :
    ∃ b, Reaches final (enter depth brace rest)
      ⟨.block b, [], last :: after, (block final depth brace rest).val.recorded, depth⟩ := by
  have lands : Reaches final (enter depth brace rest) _ := block_reaches depth brace rest [] []
  cases value : (block final depth brace rest).val with
  | mk recorded outcome =>
    rw [value] at read
    obtain ⟨b, rfl⟩ := Outcome.eq_parsed_of_position? read
    rw [landing, value] at lands
    exact ⟨b, lands⟩

/-- A block that is read ends with a brace, and no brace in it closes what was opened in front
of it. Its braces are paired, and it is closed by its own one, exactly if recovery passes over
no opening brace and gives no closing brace back; so they are if nothing had to be recorded. -/
theorem block_closes_on_own_brace_iff (source : String) (depth : Nat) {brace last : Token}
    {rest after : List Token} (inText : brace :: rest <:+ (Tokens.ofText source).list)
    (read : (block (Tokens.ofText source).final depth brace rest).val.outcome.position? = some (last, after)) :
    ∃ text, rest = text ++ last :: after ∧ last.kind = .symbol .rightBrace ∧ Nested text ∧
      ((block (Tokens.ofText source).final depth brace rest).val.recorded = [] → BraceBalanced text) ∧
      (BraceBalanced text ↔
        ∀ σ, Reaches (Tokens.ofText source).final (enter depth brace rest) σ → ¬ σ.LosesBrace) := by
  have whole : InOrder (Tokens.ofText source).final (Tokens.ofText source).list := Tokens.scan_pairwise _ _
  have inOrder := whole.suffix ((List.suffix_cons brace rest).trans inText)
  have entered := Stage.enter inOrder depth brace
  obtain ⟨b, run⟩ := enter_reaches read
  obtain ⟨lost, _, stage, kept⟩ := entered.reaches run
  obtain ⟨text, parted, closes, nested, count⟩ := stage.text rfl rfl rfl
  have clean : (∀ σ, Reaches (Tokens.ofText source).final (enter depth brace rest) σ → ¬ σ.LosesBrace) →
      BraceBalanced text := by
    intro keeps
    have none : lost = 0 := kept keeps
    exact ⟨nested, by omega⟩
  have spoiled : ∀ σ, Reaches (Tokens.ofText source).final (enter depth brace rest) σ → σ.LosesBrace →
      (block (Tokens.ofText source).final depth brace rest).val.recorded ≠ [] ∧ ¬ BraceBalanced text := by
    intro σ ran loses
    obtain ⟨_, _, stage', _⟩ := entered.reaches ran
    exact stage'.spoiled parted loses (reaches_halt run rfl ran) rfl rfl rfl
  refine ⟨text, parted, closes, nested, ?_, ?_, clean⟩
  · intro none
    exact clean fun σ ran loses => (spoiled σ ran loses).1 none
  · intro balanced σ ran loses
    exact (spoiled σ ran loses).2 balanced

/-- With a semicolon recovery stops in front of the inner block. -/
theorem recovered_block_closes_on_own_brace :
    ∃ source brace rest, source = "{ ) ; { } }" ∧ (Tokens.ofText source).list = brace :: rest ∧
      (block (Tokens.ofText source).final 0 brace rest).val.recorded.length = 1 ∧
      ∀ σ, Reaches (Tokens.ofText source).final (enter 0 brace rest) σ → ¬ σ.LosesBrace := by
  generalize given : "{ ) ; { } }" = source
  let text : List Token := [⟨.symbol .rightParen, ")", ⟨1, 3⟩⟩, ⟨.symbol .semicolon, ";", ⟨1, 5⟩⟩,
    ⟨.symbol .leftBrace, r"{", ⟨1, 7⟩⟩, ⟨.symbol .rightBrace, r"}", ⟨1, 9⟩⟩]
  let brace : Token := ⟨.symbol .leftBrace, r"{", ⟨1, 1⟩⟩
  let last : Token := ⟨.symbol .rightBrace, r"}", ⟨1, 11⟩⟩
  have list : (Tokens.ofText source).list = brace :: (text ++ [last]) := by
    rw [← given]
    decide +kernel
  have read : (block (Tokens.ofText source).final 0 brace (text ++ [last])).val.outcome.position? =
      some (last, []) := by
    rw [← given]
    decide +kernel
  have recorded : (block (Tokens.ofText source).final 0 brace (text ++ [last])).val.recorded.length = 1 := by
    rw [← given]
    decide +kernel
  obtain ⟨text', parted, _, _, _, closes_iff⟩ :=
    block_closes_on_own_brace_iff source 0 (list ▸ List.suffix_refl _) read
  obtain rfl : text = text' := List.append_cancel_right parted
  exact ⟨source, brace, text ++ [last], rfl, list, recorded, closes_iff.mp (by decide)⟩

/-- Without one it passes over the brace that opens the inner block, and the outer block is
closed by the brace of the inner one. The brace that is left over is told as an error. -/
theorem block_closes_on_inner_brace :
    ∃ source brace rest last after, source = "{ ) { } }" ∧
      (Tokens.ofText source).list = brace :: rest ∧ brace.kind = .symbol .leftBrace ∧
      (block (Tokens.ofText source).final 0 brace rest).val.outcome.position? = some (last, after) ∧
      (∀ text, rest = text ++ last :: after → ¬ BraceBalanced text) ∧
      (Program.read source).2.map Diagnostic.location = [⟨1, 3⟩, ⟨1, 9⟩] := by
  let brace : Token := ⟨.symbol .leftBrace, r"{", ⟨1, 1⟩⟩
  let text : List Token := [⟨.symbol .rightParen, ")", ⟨1, 3⟩⟩, ⟨.symbol .leftBrace, r"{", ⟨1, 5⟩⟩]
  let last : Token := ⟨.symbol .rightBrace, r"}", ⟨1, 7⟩⟩
  let after : List Token := [⟨.symbol .rightBrace, r"}", ⟨1, 9⟩⟩]
  refine ⟨_, brace, text ++ last :: after, last, after, rfl, by decide +kernel, rfl, by decide +kernel, ?_,
    by decide +kernel⟩
  intro text' parted balanced
  obtain rfl : text = text' := List.append_cancel_right parted
  exact absurd balanced (by decide)

end Machine

end ImpToC.Parse
