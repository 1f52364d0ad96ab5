import ImpToC.Proofs.Acceptance
import ImpToC.Proofs.Emission.Emitter

/-!
The emitter writes what the generator gives. A statement only adds text and, unless it
has a fault, the variable it declares; all else is put back by the time it is done. So a
run of the emitter is told by the trees of the generator, and the scopes it leaves behind
are those that the generator keeps with a fault.
-/
namespace ImpToC

theorem bind_eq_error {ε α β : Type} {step : Except ε α} {next : α → Except ε β} {fault : ε} :
    (step >>= next) = .error fault ↔
      step = .error fault ∨ ∃ value, step = .ok value ∧ next value = .error fault := by
  cases step with
  | error e => simp [bind, Except.bind]
  | ok value => simp [bind, Except.bind]

/-- The variable that a statement adds to the scope it stands in, if it adds one. -/
def Stmt.binding? (scopes : Scopes) : Stmt → Option (String × ValueType)
  | .declare name none _ => some (name, .int)
  | .declare name (some value) _ => some (name, value.type scopes)
  | .assign name value _ => if scopes.lookup? name = none then some (name, value.type scopes) else none
  | _ => none

/-- The variables of a scope after statements that stand in it, the newest first. -/
def Stmt.variablesAfter (outer : List (List (String × ValueType))) (frame : List (String × ValueType)) :
    List Stmt → List (String × ValueType)
  | [] => frame
  | s :: ss => Stmt.variablesAfter outer ((s.binding? ⟨frame :: outer⟩).toList ++ frame) ss

namespace Generate

variable {context : Context} {frame : List (String × ValueType)} {outer : List (List (String × ValueType))}

theorem declare?_scopes {name : String} {type : ValueType} {after : Scopes}
    (declared : Scopes.declare? ⟨frame :: outer⟩ name type = some after) :
    name ∉ frame.map Prod.fst ∧ after = ⟨((name, type) :: frame) :: outer⟩ :=
  Scopes.declare?_eq_some.mp declared

/-- A statement adds to the innermost scope at most, and only a name that is new in it. -/
theorem statement_scopes {s : Stmt} {code : C.Stmt} {after : Scopes}
    (lowered : statement context ⟨frame :: outer⟩ s = .ok (code, after)) :
    (∀ x ∈ s.binding? ⟨frame :: outer⟩, x.1 ∉ frame.map Prod.fst) ∧
      after = ⟨((s.binding? ⟨frame :: outer⟩).toList ++ frame) :: outer⟩ := by
  cases s with
  | declare name value l =>
    rw [statement] at lowered
    cases value with
    | none =>
      obtain ⟨_, declared, _⟩ := declaration_none_ok.mp lowered
      simpa [Stmt.binding?] using declare?_scopes declared
    | some value =>
      obtain ⟨_, _, _, _, declared, _⟩ := declaration_some_ok.mp lowered
      simpa [Stmt.binding?] using declare?_scopes declared
  | assign name value l =>
    rw [statement] at lowered
    rcases assignment_ok.mp lowered with ⟨unbound, lowered⟩ | ⟨bound, rfl, _⟩
    · obtain ⟨_, _, _, _, declared, _⟩ := declaration_some_ok.mp lowered
      simpa [Stmt.binding?, unbound] using declare?_scopes declared
    · simp [Stmt.binding?, bound]
  | print value l =>
    rw [statement] at lowered
    obtain ⟨_, rfl⟩ := keeping_ok.mp lowered
    simp [Stmt.binding?]
  | branch condition consequence alternative l =>
    obtain ⟨rfl, _⟩ := branch_ok.mp lowered
    simp [Stmt.binding?]
  | block body =>
    obtain ⟨rfl, _⟩ := statement_block_ok.mp lowered
    simp [Stmt.binding?]
  | foreign name l =>
    rw [statement] at lowered
    cases lowered
    simp [Stmt.binding?]
  | ret value l =>
    rw [statement] at lowered
    obtain ⟨_, rfl⟩ := keeping_ok.mp lowered
    simp [Stmt.binding?]
  | func name params body l =>
    rw [statement] at lowered
    cases lowered
  | expr value l =>
    rw [statement] at lowered
    obtain ⟨_, rfl⟩ := keeping_ok.mp lowered
    simp [Stmt.binding?]

theorem statements_scopes {ss : List Stmt} {codes : List C.Stmt} {after : Scopes}
    (lowered : statements context ⟨frame :: outer⟩ ss = .ok (codes, after)) :
    after = ⟨Stmt.variablesAfter outer frame ss :: outer⟩ := by
  induction ss generalizing frame codes with
  | nil =>
    rw [statements] at lowered
    cases lowered
    rfl
  | cons s ss ih =>
    obtain ⟨code, middle, rest, first, others, _⟩ := statements_cons_ok.mp lowered
    obtain ⟨_, rfl⟩ := statement_scopes first
    exact ih others

/-- Where statements fail: those in front of the one at fault are lowered, and what they
declare is what the fault is kept with. -/
theorem statements_failed {ss : List Stmt} {failure : Failure}
    (failed : statements context ⟨frame :: outer⟩ ss = .error failure) :
    ∃ before s after codes, ss = before ++ s :: after ∧
      failure.scopes = ⟨Stmt.variablesAfter outer frame before :: outer⟩ ∧
      statements context ⟨frame :: outer⟩ before = .ok (codes, failure.scopes) ∧
      statement context failure.scopes s = .error failure.error := by
  induction ss generalizing frame with
  | nil =>
    rw [statements] at failed
    cases failed
  | cons s ss ih =>
    rw [statements] at failed
    cases first : statement context ⟨frame :: outer⟩ s with
    | error error =>
      rw [first] at failed
      cases failed
      exact ⟨[], s, ss, [], rfl, rfl, rfl, first⟩
    | ok result =>
      obtain ⟨code, middle⟩ := result
      obtain ⟨_, rfl⟩ := statement_scopes first
      rw [first] at failed
      rcases bind_eq_error.mp failed with failed | ⟨_, _, finished⟩
      · obtain ⟨before, t, after, codes, split, scopes, lowered, fault⟩ := ih failed
        refine ⟨s :: before, t, after, code :: codes, by rw [split, List.cons_append], scopes, ?_, fault⟩
        exact statements_cons_ok.mpr ⟨code, _, codes, first, lowered, rfl⟩
      · cases finished

end Generate

namespace Emitter

open Generate (Failure)

/-- The emitter with more text and other scopes. -/
def wrote (e : Emitter) (text : String) (symbols : Scopes) : Emitter :=
  { e with output := e.output ++ text, symbols }

@[simp] theorem wrote_symbols (e : Emitter) (text : String) (symbols : Scopes) :
    (e.wrote text symbols).symbols = symbols := rfl

@[simp] theorem wrote_indent (e : Emitter) (text : String) (symbols : Scopes) :
    (e.wrote text symbols).indent = e.indent := rfl

@[simp] theorem wrote_context (e : Emitter) (text : String) (symbols : Scopes) :
    (e.wrote text symbols).context = e.context := rfl

@[simp] theorem wrote_functions (e : Emitter) (text : String) (symbols : Scopes) :
    (e.wrote text symbols).functions = e.functions := rfl

@[simp] theorem wrote_wrote (e : Emitter) (text more : String) (symbols final : Scopes) :
    (e.wrote text symbols).wrote more final = e.wrote (text ++ more) final := by
  simp [wrote, String.append_assoc]

@[simp] theorem wrote_nothing (e : Emitter) : e.wrote "" e.symbols = e := by
  simp [wrote]

theorem bind_ok {α β : Type} {x : Action α} {f : α → Action β} {e after : Emitter} {a : α}
    (run : x e = (.ok a, after)) : (x >>= f) e = f a after := by
  change ((x >>= ExceptT.bindCont f : StateM Emitter _) e) = f a after
  simp [bind, StateT.bind, run, ExceptT.bindCont]

theorem bind_error {α β : Type} {x : Action α} {f : α → Action β} {e after : Emitter} {error : GenError}
    (run : x e = (.error error, after)) : (x >>= f) e = (.error error, after) := by
  change ((x >>= ExceptT.bindCont f : StateM Emitter _) e) = _
  simp [bind, StateT.bind, run, ExceptT.bindCont]
  rfl

theorem expression_run (value : Expr) (e : Emitter) :
    expression value e = ((value.lower e.functions e.symbols).map C.Expr.render, e) := by
  change (found (value.lower e.functions e.symbols) >>= fun code => pure code.render : Action String) e = _
  cases value.lower e.functions e.symbols with
  | error error => rfl
  | ok code => rfl

theorem declare_run (name : String) (type : ValueType) (l : Location) (e : Emitter) :
    declare name type l e =
      match Generate.declare e.symbols name type l with
      | .ok after => (.ok (), { e with symbols := after })
      | .error error => (.error error, e) := by
  change (found (Generate.declare e.symbols name type l) >>= fun after =>
    modify fun e => { e with symbols := after } : Action Unit) e = _
  cases Generate.declare e.symbols name type l with
  | error error => rfl
  | ok after => rfl

/-- An action that follows a result: all it changes is the text and the scopes, it ends
with the fault of the result if that has one, and the scopes are then those of the fault. -/
inductive Follows (action : Action Unit) (e : Emitter) : Except Failure (String × Scopes) → Prop where
  | done {text : String} {scopes : Scopes} (run : action e = (.ok (), e.wrote text scopes)) :
      Follows action e (.ok (text, scopes))
  | failed {failure : Failure} (text : String)
      (run : action e = (.error failure.error, e.wrote text failure.scopes)) :
      Follows action e (.error failure)

/-- A result as text. A fault is kept with the scopes in front of it. -/
def shown {α : Type} (e : Emitter) (render : α → String × Scopes) :
    Except GenError α → Except Failure (String × Scopes)
  | .ok code => .ok (render code)
  | .error error => .error ⟨error, e.symbols⟩

/-- The text of a statement at the depth of the emitter. -/
def shownStmt (e : Emitter) : Except GenError (C.Stmt × Scopes) → Except Failure (String × Scopes) :=
  e.shown fun (code, scopes) => (code.render e.indent, scopes)

/-- Statements that leave the scopes as they are. -/
theorem shownStmt_keeping (e : Emitter) (step : Except GenError C.Stmt) :
    e.shownStmt (do return (← step, e.symbols)) = e.shown (fun code => (code.render e.indent, e.symbols)) step := by
  cases step with
  | error error => rfl
  | ok code => rfl

namespace Follows

variable {e : Emitter} {a b : Action Unit} {text : String} {scopes : Scopes}
  {result : Except Failure (String × Scopes)}

theorem of_run (run : a e = b e) (follows : Follows b e result) : Follows a e result := by
  cases follows with
  | done run' => exact .done (run.trans run')
  | failed text run' => exact .failed text (run.trans run')

theorem fault (error : GenError) : Follows (throw error) e (.error ⟨error, e.symbols⟩) := by
  apply Follows.failed ""
  rw [wrote_nothing]
  rfl

theorem nothing : Follows (pure ()) e (.ok ("", e.symbols)) := by
  apply Follows.done
  rw [wrote_nothing]
  rfl

theorem line (text : String) : Follows (Emitter.line text) e (.ok (C.line e.indent text, e.symbols)) :=
  .done rfl

/-- One action after another. -/
theorem seq {more : String} {final : Scopes} (first : Follows a e (.ok (text, scopes)))
    (second : Follows b (e.wrote text scopes) (.ok (more, final))) :
    Follows (do a; b) e (.ok (text ++ more, final)) := by
  cases first with
  | done run =>
    cases second with
    | done run' =>
      apply Follows.done
      rw [bind_ok run, run', wrote_wrote]

theorem seq_failed {failure : Failure} (first : Follows a e (.ok (text, scopes)))
    (second : Follows b (e.wrote text scopes) (.error failure)) : Follows (do a; b) e (.error failure) := by
  cases first with
  | done run =>
    cases second with
    | failed more run' =>
      apply Follows.failed (text ++ more)
      rw [bind_ok run, run', wrote_wrote]

theorem failed_seq {failure : Failure} (first : Follows a e (.error failure)) :
    Follows (do a; b) e (.error failure) := by
  cases first with
  | failed text run => exact .failed text (bind_error run)

/-- An action that looks at the emitter first. -/
theorem reading {next : Emitter → Action Unit} (later : Follows (next e) e result) :
    Follows (get >>= next) e result := by
  exact of_run (b := next e) rfl later

/-- The type of a value is looked up and the value is lowered in the scopes as they are. -/
theorem typeOf {value : Expr} {next : ValueType → Action Unit}
    (later : Follows (next (value.type e.symbols)) e result) :
    Follows (Emitter.typeOf value >>= next) e result := by
  exact of_run (b := next (value.type e.symbols)) rfl later

theorem expression {value : Expr} {code : C.Expr} {next : String → Action Unit}
    (lowered : value.lower e.functions e.symbols = .ok code) (later : Follows (next code.render) e result) :
    Follows (Emitter.expression value >>= next) e result := by
  apply of_run ?_ later
  apply bind_ok
  rw [expression_run, lowered]
  rfl

theorem expression_failed {value : Expr} {error : GenError} {next : String → Action Unit}
    (failed : value.lower e.functions e.symbols = .error error) :
    Follows (Emitter.expression value >>= next) e (.error ⟨error, e.symbols⟩) := by
  have run : Emitter.expression value e = (.error error, e) := by
    rw [expression_run, failed]
    rfl
  apply Follows.failed ""
  rw [bind_error run, wrote_nothing]

theorem declare {name : String} {type : ValueType} {l : Location}
    (declared : Generate.declare e.symbols name type l = .ok scopes) :
    Follows (Emitter.declare name type l) e (.ok ("", scopes)) := by
  apply Follows.done
  rw [declare_run, declared, wrote, String.append_empty]

theorem declare_failed {name : String} {type : ValueType} {l : Location} {error : GenError}
    (failed : Generate.declare e.symbols name type l = .error error) :
    Follows (Emitter.declare name type l) e (.error ⟨error, e.symbols⟩) := by
  apply Follows.failed ""
  rw [declare_run, failed, wrote_nothing]

/-- A variable is declared, and the line about it is written. -/
theorem declare_line {name text : String} {type : ValueType} {l : Location}
    (declared : Generate.declare e.symbols name type l = .ok scopes) :
    Follows (do Emitter.declare name type l; Emitter.line text) e (.ok (C.line e.indent text, scopes)) := by
  have written := seq (.declare declared) (.line text)
  rwa [String.empty_append] at written

end Follows

variable (e : Emitter)

theorem emitDeclaration_follows (name : String) (value : Option Expr) (l : Location) :
    Follows (emitDeclaration name value l) e
      (e.shownStmt (Generate.declaration e.functions e.symbols name value l)) := by
  unfold emitDeclaration Generate.declaration
  split
  · exact .fault _
  · cases value with
    | none =>
      dsimp only
      cases declared : Generate.declare e.symbols name .int l with
      | error error => exact .failed_seq (.declare_failed declared)
      | ok after => exact .declare_line declared
    | some value =>
      dsimp only
      cases value.mention? name with
      | some used => exact .fault _
      | none =>
        dsimp only
        apply Follows.typeOf
        cases lowered : value.lower e.functions e.symbols with
        | error error => exact .expression_failed lowered
        | ok code =>
          apply Follows.expression lowered
          cases declared : Generate.declare e.symbols name (value.type e.symbols) l with
          | error error => exact .failed_seq (.declare_failed declared)
          | ok after => exact .declare_line declared

theorem emitAssignment_follows (name : String) (value : Expr) (l : Location) :
    Follows (emitAssignment name value l) e
      (e.shownStmt (Generate.assignment e.functions e.symbols name value l)) := by
  unfold emitAssignment Generate.assignment
  apply Follows.reading
  cases e.symbols.lookup? name with
  | none => exact emitDeclaration_follows e name (some value) l
  | some expected =>
    dsimp only
    apply Follows.typeOf
    split
    · cases lowered : value.lower e.functions e.symbols with
      | error error => exact .expression_failed lowered
      | ok code => exact .expression lowered (.line _)
    · exact .fault _

theorem emitOutput_follows (value : Expr) :
    Follows (emitOutput value) e
      (e.shown (fun code => (code.render e.indent, e.symbols)) (Generate.output e.functions e.symbols value)) := by
  unfold emitOutput Generate.output
  apply Follows.typeOf
  cases lowered : value.lower e.functions e.symbols with
  | error error => exact .expression_failed lowered
  | ok code => exact .expression lowered (.line _)

theorem emitReturn_follows (value : Option Expr) (l : Location) :
    Follows (emitReturn value l) e
      (e.shown (fun code => (code.render e.indent, e.symbols))
        (Generate.returning e.functions e.symbols value l)) := by
  unfold emitReturn Generate.returning
  cases value with
  | none => exact .line _
  | some value =>
    dsimp only
    apply Follows.typeOf
    cases value.type e.symbols with
    | str => exact .fault _
    | int =>
      cases lowered : value.lower e.functions e.symbols with
      | error error => exact .expression_failed lowered
      | ok code => exact .expression lowered (.line _)

theorem emitBare_follows (value : Expr) :
    Follows (emitBare value) e
      (e.shown (fun code => (code.render e.indent, e.symbols)) (Generate.bare e.context e.symbols value)) := by
  unfold emitBare Generate.bare
  apply Follows.reading
  by_cases inside : e.inFunction = true
  · rw [if_pos inside, if_pos (show e.context.inFunction = true from inside)]
    cases lowered : value.lower e.context.functions e.symbols with
    | error error => exact .expression_failed lowered
    | ok code => exact .expression lowered (.line _)
  · rw [if_neg inside, if_neg (show ¬ e.context.inFunction = true from inside)]
    exact emitOutput_follows e value

variable {e}

/-- A statement writes its C, or stops with its fault. What it opened is closed again. -/
def Agrees (s : Stmt) : Prop :=
  ∀ e : Emitter, Follows (emit s) e (e.shownStmt (Generate.statement e.context e.symbols s))

/-- Statements follow the generator if each of them does. -/
theorem emitAll_follows {ss : List Stmt} (each : ∀ s ∈ ss, Agrees s) (e : Emitter) :
    Follows (emitAll ss) e
      ((Generate.statements e.context e.symbols ss).map fun (codes, scopes) =>
        (C.Stmt.renderAll e.indent codes, scopes)) := by
  induction ss generalizing e with
  | nil => exact .nothing
  | cons s ss ih =>
    rw [emitAll, Generate.statements]
    have first := each s (by simp) e
    cases lowered : Generate.statement e.context e.symbols s with
    | error error =>
      rw [lowered] at first
      exact first.failed_seq
    | ok result =>
      obtain ⟨code, middle⟩ := result
      rw [lowered] at first
      have others := ih (fun s member => each s (by simp [member])) (e.wrote (code.render e.indent) middle)
      rw [wrote_context, wrote_symbols] at others
      dsimp only
      cases later : Generate.statements e.context middle ss with
      | error failure =>
        rw [later] at others
        exact first.seq_failed others
      | ok result =>
        rw [later] at others
        exact first.seq others

/-- The scope of a block is closed again, whatever became of the block. -/
theorem inScope_follows {body : Action Unit} {text : String} {scopes : Scopes}
    (inside : Follows body { e with indent := e.indent + 1, symbols := e.symbols.push } (.ok (text, scopes)))
    (closes : scopes.pop = e.symbols) : Follows (inScope body) e (.ok (text, e.symbols)) := by
  cases inside with
  | done run =>
    apply Follows.done
    simp only [inScope, run, wrote, closes, Nat.add_sub_cancel]

theorem inScope_failed {body : Action Unit} {failure : Failure}
    (inside : Follows body { e with indent := e.indent + 1, symbols := e.symbols.push } (.error failure))
    (closes : failure.scopes.pop = e.symbols) :
    Follows (inScope body) e (.error ⟨failure.error, e.symbols⟩) := by
  cases inside with
  | failed text run =>
    apply Follows.failed text
    simp only [inScope, run, wrote, closes, Nat.add_sub_cancel]

theorem emitBlock_follows {body : Block} (each : ∀ s ∈ body.statements, Agrees s) (e : Emitter) :
    Follows (emitBlock body) e
      (e.shown (fun codes => (C.Stmt.renderAll (e.indent + 1) codes, e.symbols))
        (Generate.block e.context e.symbols body)) := by
  cases body with
  | mk body l =>
    have inside := emitAll_follows each { e with indent := e.indent + 1, symbols := e.symbols.push }
    change Follows _ _ ((Generate.statements e.context e.symbols.push body).map _) at inside
    rw [emitBlock, Generate.block]
    cases lowered : Generate.statements e.context e.symbols.push body with
    | error failure =>
      rw [lowered] at inside
      obtain ⟨before, _, _, _, _, kept, _⟩ := Generate.statements_failed lowered
      apply inScope_failed inside
      rw [kept]
      rfl
    | ok result =>
      obtain ⟨codes, final⟩ := result
      rw [lowered] at inside
      apply inScope_follows inside
      rw [Generate.statements_scopes lowered]
      rfl

theorem emitAlternative_follows {body : Option Block}
    (each : ∀ inner, body = some inner → ∀ s ∈ inner.statements, Agrees s) (e : Emitter) :
    Follows (emitAlternative body) e
      (e.shown (fun code => (C.Stmt.renderAlternative e.indent code, e.symbols))
        (Generate.optionalBlock e.context e.symbols body)) := by
  cases body with
  | none => exact .nothing
  | some inner =>
    rw [emitAlternative, Generate.optionalBlock]
    have inside := emitBlock_follows (each inner rfl) (e.wrote (C.line e.indent r"} else {") e.symbols)
    rw [wrote_context, wrote_symbols] at inside
    cases lowered : Generate.block e.context e.symbols inner with
    | error error =>
      rw [lowered] at inside
      exact .seq_failed (.line _) inside
    | ok codes =>
      rw [lowered] at inside
      exact .seq (.line _) inside

theorem branch_agrees {condition : Expr} {consequence : Block} {alternative : Option Block} {l : Location}
    (yes : ∀ s ∈ consequence.statements, Agrees s)
    (no : ∀ inner, alternative = some inner → ∀ s ∈ inner.statements, Agrees s) :
    Agrees (.branch condition consequence alternative l) := by
  intro e
  rw [emit, Generate.statement]
  cases tested : condition.lower e.context.functions e.symbols with
  | error error => exact .expression_failed tested
  | ok test =>
    apply Follows.expression tested
    have opening := Follows.line (e := e) ("if (" ++ test.render ++ r") {")
    have taken := emitBlock_follows yes
      (e.wrote (C.line e.indent ("if (" ++ test.render ++ r") {")) e.symbols)
    rw [wrote_context, wrote_symbols, wrote_indent] at taken
    cases first : Generate.block e.context e.symbols consequence with
    | error error =>
      rw [first] at taken
      exact opening.seq_failed taken.failed_seq
    | ok codes =>
      rw [first] at taken
      have untaken := emitAlternative_follows no
        ((e.wrote (C.line e.indent ("if (" ++ test.render ++ r") {")) e.symbols).wrote
          (C.Stmt.renderAll (e.indent + 1) codes) e.symbols)
      simp only [wrote_context, wrote_symbols, wrote_indent] at untaken
      cases second : Generate.optionalBlock e.context e.symbols alternative with
      | error error =>
        rw [second] at untaken
        exact opening.seq_failed (taken.seq_failed untaken.failed_seq)
      | ok code =>
        rw [second] at untaken
        have whole := opening.seq (taken.seq (untaken.seq (.line r"}")))
        simp only [← String.append_assoc] at whole
        exact whole

theorem block_agrees {body : Block} (each : ∀ s ∈ body.statements, Agrees s) : Agrees (.block body) := by
  intro e
  rw [emit, Generate.statement]
  have written := emitBlock_follows each (e.wrote (C.line e.indent r"{") e.symbols)
  rw [wrote_context, wrote_symbols] at written
  cases lowered : Generate.block e.context e.symbols body with
  | error error =>
    rw [lowered] at written
    exact .seq_failed (.line _) (.failed_seq written)
  | ok codes =>
    rw [lowered] at written
    have whole := Follows.seq (.line _) (.seq written (.line r"}"))
    rw [← String.append_assoc] at whole
    exact whole

theorem emit_follows (s : Stmt) : Agrees s := by
  induction s using Stmt.induction with
  | declare name value l =>
    intro e
    rw [emit, Generate.statement]
    exact emitDeclaration_follows e name value l
  | assign name value l =>
    intro e
    rw [emit, Generate.statement]
    exact emitAssignment_follows e name value l
  | print value l =>
    intro e
    rw [emit, Generate.statement, shownStmt_keeping]
    exact emitOutput_follows e value
  | branch condition consequence alternative l yes no => exact branch_agrees yes no
  | block body inside => exact block_agrees inside
  | foreign name l =>
    intro e
    rw [emit, Generate.statement]
    exact .line _
  | ret value l =>
    intro e
    rw [emit, Generate.statement, shownStmt_keeping]
    exact emitReturn_follows e value l
  | func name params body l =>
    intro e
    rw [emit, Generate.statement]
    exact .fault _
  | expr value l =>
    intro e
    rw [emit, Generate.statement, shownStmt_keeping]
    exact emitBare_follows e value

theorem statements_follow (ss : List Stmt) (e : Emitter) :
    Follows (emitAll ss) e
      ((Generate.statements e.context e.symbols ss).map fun (codes, scopes) =>
        (C.Stmt.renderAll e.indent codes, scopes)) :=
  emitAll_follows (fun s _ => emit_follows s) e

end Emitter

end ImpToC
