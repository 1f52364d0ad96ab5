import ImpToC.Proofs.Emission.Programs

/-!
Functions are compiled apart from each other. What a body becomes depends on the rest of the
program only through the functions that it calls, and of these only through their number of
parameters. The emitter writes all bodies with one state, but by the time it comes to a
function nothing of those before it is left there but the text. So a function that two
programs share has the same text in both, or the same fault.
-/
namespace ImpToC

namespace FunctionTable

variable {functions others : FunctionTable}

/-- Two tables that tell the same of every name that is called: no function has it in
either, or it has as many parameters in both. -/
def AgreeOn (functions others : FunctionTable) (leaves : List Leaf) : Prop :=
  ∀ name, .callee name ∈ leaves → Expr.arityOf functions name = Expr.arityOf others name

theorem AgreeOn.left {xs ys : List Leaf} (agree : functions.AgreeOn others (xs ++ ys)) :
    functions.AgreeOn others xs :=
  fun name called => agree name (List.mem_append_left ys called)

theorem AgreeOn.right {xs ys : List Leaf} (agree : functions.AgreeOn others (xs ++ ys)) :
    functions.AgreeOn others ys :=
  fun name called => agree name (List.mem_append_right xs called)

end FunctionTable

namespace Expr

variable {functions others : FunctionTable} {scopes : Scopes}

theorem checkCall_congr {name : String} (same : arityOf functions name = arityOf others name)
    (args : List Expr) (l : Location) :
    checkCall functions scopes name args l = checkCall others scopes name args l := by
  unfold arityOf at same
  unfold checkCall
  cases found : functions.get? name with
  | none =>
    cases found' : others.get? name with
    | none => rfl
    | some d => simp [found, found'] at same
  | some d =>
    cases found' : others.get? name with
    | none => simp [found, found'] at same
    | some d' =>
      simp only [found, found', Option.map_some, Option.some.injEq] at same
      simp only [same]

theorem lowerAll_congr {args : List Expr}
    (each : ∀ e ∈ args, e.lower functions scopes = e.lower others scopes) :
    lowerAll functions scopes args = lowerAll others scopes args := by
  induction args with
  | nil => rfl
  | cons e es ih =>
    obtain ⟨first, rest⟩ := List.forall_mem_cons.mp each
    rw [lowerAll, lowerAll, first, ih rest]

theorem lower_congr (e : Expr) (agree : functions.AgreeOn others e.leaves) :
    e.lower functions scopes = e.lower others scopes := by
  induction e using Expr.induction with
  | ident name l => rw [lower, lower]
  | int value l => rw [lower, lower]
  | str text l => rw [lower, lower]
  | func params body l => rw [lower, lower]
  | binary op left right l first second =>
    rw [lower, lower, first agree.left, second agree.right]
  | call callee args l _ each =>
    have onArgs : lowerAll functions scopes args = lowerAll others scopes args := by
      apply lowerAll_congr
      intro e member
      apply each e member
      intro name called
      exact agree.right name (mem_leavesOfAll.mpr ⟨e, member, called⟩)
    rw [lower, lower, onArgs]
    cases named : callee? scopes callee l with
    | error error => rfl
    | ok name =>
      -- A callee that is not refused is a name, so it is among the leaves.
      obtain ⟨m, rfl, _⟩ := callee?_ok.mp named
      have same := agree name (by simp [leaves, calleeName?])
      exact congrArg (· >>= fun _ => _) (checkCall_congr same args l)

end Expr

namespace Generate

variable {functions others : FunctionTable} {inFunction : Bool}

theorem declaration_congr {scopes : Scopes} {name : String} (value : Option Expr) {l : Location}
    (agree : functions.AgreeOn others (Expr.leavesOfOption value)) :
    declaration functions scopes name value l = declaration others scopes name value l := by
  cases value with
  | none => rfl
  | some value => simp only [declaration, Expr.lower_congr value agree]

theorem assignment_congr {scopes : Scopes} {name : String} {value : Expr} {l : Location}
    (agree : functions.AgreeOn others value.leaves) :
    assignment functions scopes name value l = assignment others scopes name value l := by
  simp only [assignment, declaration_congr (some value) agree, Expr.lower_congr value agree]

theorem output_congr {scopes : Scopes} {value : Expr} (agree : functions.AgreeOn others value.leaves) :
    output functions scopes value = output others scopes value := by
  rw [output, output, Expr.lower_congr value agree]

theorem returning_congr {scopes : Scopes} {value : Option Expr} {l : Location}
    (agree : functions.AgreeOn others (Expr.leavesOfOption value)) :
    returning functions scopes value l = returning others scopes value l := by
  cases value with
  | none => rfl
  | some value => simp only [returning, Expr.lower_congr value agree]

theorem bare_congr {scopes : Scopes} {value : Expr} (agree : functions.AgreeOn others value.leaves) :
    bare ⟨functions, inFunction⟩ scopes value = bare ⟨others, inFunction⟩ scopes value := by
  simp only [bare, output_congr agree, Expr.lower_congr value agree]

variable (inFunction) in
mutual

/-- Of the table, a statement reads how many parameters the functions have that it calls. -/
theorem statement_congr (scopes : Scopes) (s : Stmt) (agree : functions.AgreeOn others s.leaves) :
    statement ⟨functions, inFunction⟩ scopes s = statement ⟨others, inFunction⟩ scopes s := by
  cases s with
  | declare name value l =>
    rw [statement, statement]
    exact declaration_congr value fun name called => agree name (List.mem_cons_of_mem _ called)
  | assign name value l =>
    rw [statement, statement]
    exact assignment_congr fun name called => agree name (List.mem_cons_of_mem _ called)
  | print value l => rw [statement, statement, output_congr agree]
  | branch condition consequence alternative l =>
    have test := agree.left.left
    have yes := block_congr scopes consequence agree.left.right
    have no := optionalBlock_congr scopes alternative agree.right
    rw [statement, statement, Expr.lower_congr condition test, yes, no]
  | block body => rw [statement, statement, block_congr scopes body agree]
  | foreign name l => rw [statement, statement]
  | ret value l => rw [statement, statement, returning_congr agree]
  | func name params body l => rw [statement, statement]
  | expr value l => rw [statement, statement, bare_congr agree]

theorem block_congr (scopes : Scopes) (body : Block) (agree : functions.AgreeOn others body.leaves) :
    block ⟨functions, inFunction⟩ scopes body = block ⟨others, inFunction⟩ scopes body := by
  cases body with
  | mk ss l => rw [block, block, statements_congr scopes.push ss agree]

theorem optionalBlock_congr (scopes : Scopes) (body : Option Block)
    (agree : functions.AgreeOn others (Block.leavesOfOption body)) :
    optionalBlock ⟨functions, inFunction⟩ scopes body = optionalBlock ⟨others, inFunction⟩ scopes body := by
  cases body with
  | none => rw [optionalBlock, optionalBlock]
  | some body => rw [optionalBlock, optionalBlock, block_congr scopes body agree]

theorem statements_congr (scopes : Scopes) (ss : List Stmt)
    (agree : functions.AgreeOn others (Stmt.leavesOfAll ss)) :
    statements ⟨functions, inFunction⟩ scopes ss = statements ⟨others, inFunction⟩ scopes ss := by
  cases ss with
  | nil => rw [statements, statements]
  | cons s ss =>
    rw [statements, statements, statement_congr scopes s agree.left]
    cases statement ⟨others, inFunction⟩ scopes s with
    | error error => rfl
    | ok result =>
      obtain ⟨code, after⟩ := result
      dsimp only
      rw [statements_congr after ss agree.right]

end

theorem function_congr {d : FunctionDef} (agree : functions.AgreeOn others d.body.leaves) :
    function functions d = function others d := by
  obtain ⟨name, params, ⟨ss, m⟩, l⟩ := d
  unfold function
  simp only [Block.statements, statements_congr true _ ss agree]

theorem mainBody_congr {ss : List Stmt} (agree : functions.AgreeOn others (Stmt.leavesOfAll ss)) :
    mainBody functions ss = mainBody others ss := by
  rw [mainBody, mainBody, statements_congr false _ ss agree]

end Generate

namespace Emitter

open Generate (Failure)

/-- All that is written in front of the functions. -/
def opening : Action Unit := do
  write C.preamble
  forwardDeclarations

/-- A run on a program as far as the functions `earlier` are written. The statements of the
main body are handed on. -/
def upTo (p : Program) (earlier : List FunctionDef) : Action (List Stmt) := do
  reset
  let main ← extractFunctions p.statements
  opening
  emitFunctions earlier
  return main

/-- The rest of a run: the functions that are left, the main body, and the text. -/
def finish (later : List FunctionDef) (main : List Stmt) : Action String := do
  emitFunctions later
  emitMain main
  modifyGet fun e => (e.output, { e with output := "" })

theorem opening_ends {e : Emitter} (idle : e.Idle) :
    Ends opening e (.ok (C.preamble ++ prototypes e.functions.definitions)) :=
  .seq (.text_only idle C.preamble) (forwardDeclarations_ends (idle.wrote C.preamble))

theorem emitFunctions_append (earlier later : List FunctionDef) :
    emitFunctions (earlier ++ later) = (do emitFunctions earlier; emitFunctions later) := by
  induction earlier with
  | nil => rw [List.nil_append, emitFunctions, pure_bind]
  | cons d ds ih => rw [List.cons_append, emitFunctions, emitFunctions, ih, bind_assoc]

/-- A run that gets as far as a function is idle there, with the table of the program and
nothing else left from what was written before; and it goes on with the rest. -/
theorem generate_resumes {p : Program} {table : FunctionTable} {rest main : List Stmt}
    {earlier later : List FunctionDef} {start e : Emitter}
    (parted : Generate.extract .empty 0 p.statements = .ok (table, rest))
    (split : table.definitions = earlier ++ later) (run : upTo p earlier start = (.ok main, e)) :
    main = rest ∧ e.Idle ∧ e.functions = table ∧ generate p start = finish later main e := by
  have extracts : Extracts p.statements new (Generate.extract .empty 0 p.statements) :=
    extractFunctions_extracts p.statements new
  rw [parted] at extracts
  cases extracts with
  | done count finished =>
    have idle : Idle { new with functions := table, anonymous := count } := ⟨rfl, rfl, rfl⟩
    cases opening_ends idle with
    | done opened =>
      have ready := idle.wrote (C.preamble ++ prototypes table.definitions)
      have listed : (wrote { new with functions := table, anonymous := count }
        (C.preamble ++ prototypes table.definitions) .empty).functions = table := rfl
      dsimp only at opened
      generalize wrote _ _ _ = state at opened ready listed
      have before : upTo p earlier start =
          (do emitFunctions earlier; return rest : Action (List Stmt)) state := by
        refine (bind_ok finished).trans ?_
        exact bind_ok opened
      have after : generate p start =
          (do emitFunctions earlier; finish later rest : Action String) state := by
        refine (bind_ok finished).trans ?_
        simp only [emitProgram, bind_assoc]
        rw [← bind_assoc]
        refine (bind_ok opened).trans ?_
        change (emitFunctions state.functions.definitions >>= fun _ => _ : Action String) state = _
        rw [listed, split, emitFunctions_append, bind_assoc]
        rfl
      rw [before] at run
      have written := emitFunctions_ends earlier ready
      cases lowered : Generate.functions state.functions earlier with
      | error failure =>
        rw [lowered] at written
        cases written with
        | failed stopped left =>
          rw [bind_error stopped] at run
          cases run
      | ok fs =>
        rw [lowered] at written
        cases written with
        | done finished =>
          rw [bind_ok finished] at run
          cases run
          exact ⟨rfl, ready.wrote _, listed, after.trans (bind_ok finished)⟩

/-- An emitter in the middle of a run on a program, with the functions `later` and the main
body still to be written. -/
def Awaits (p : Program) (later : List FunctionDef) (e : Emitter) : Prop :=
  ∃ start earlier main, p.definitions = earlier ++ later ∧ upTo p earlier start = (.ok main, e)

theorem awaits_of_isOk {p : Program} {earlier later : List FunctionDef} {start : Emitter}
    (split : p.definitions = earlier ++ later) (ran : (upTo p earlier start).1.isOk = true) :
    Awaits p later (upTo p earlier start).2 := by
  cases result : (upTo p earlier start).1 with
  | error error =>
    rw [result] at ran
    cases ran
  | ok main => exact ⟨start, earlier, main, split, Prod.ext result rfl⟩

/-- What an action adds to the text, or the fault that ends it. -/
inductive Writes (action : Action Unit) (e : Emitter) : Except GenError String → Prop where
  | done {text : String} {after : Emitter} (run : action e = (.ok (), after))
      (grown : after.output = e.output ++ text) : Writes action e (.ok text)
  | failed {error : GenError} {after : Emitter} (run : action e = (.error error, after)) :
      Writes action e (.error error)

theorem Ends.writes {action : Action Unit} {e : Emitter} {result : Except Failure String}
    (ends : Ends action e result) : Writes action e (result.mapError Failure.error) := by
  cases ends with
  | done run => exact .done run rfl
  | failed run left => exact .failed run

/-- Where a run awaits functions, it is idle and has the table of the program. -/
theorem Awaits.idle {p : Program} {table : FunctionTable} {main : List Stmt} {later : List FunctionDef}
    {e : Emitter} (parted : Generate.extract .empty 0 p.statements = .ok (table, main)) (awaits : Awaits p later e) :
    e.Idle ∧ e.functions = table ∧ ∃ start, generate p start = finish later main e := by
  obtain ⟨start, earlier, rest, split, run⟩ := awaits
  obtain ⟨_, rfl, rfl⟩ := Generate.extract_ok.mp parted
  obtain ⟨rfl, idle, listed, resumed⟩ := generate_resumes parted split run
  exact ⟨idle, listed, start, resumed⟩

/-- Two programs whose functions can be taken out. Where a run on one of them awaits
functions, it goes on with them and the main body. A function that is in both tables, with
calls of which the tables tell the same, is lowered to the same C or has the same fault; and
whatever either run has written before, they write the same definition for it or stop with
the same fault. The same goes for a main body that both share. -/
theorem separate_emission {p q : Program} {table table' : FunctionTable} {main main' : List Stmt}
    (parted : Generate.extract .empty 0 p.statements = .ok (table, main))
    (parted' : Generate.extract .empty 0 q.statements = .ok (table', main')) :
    (∀ later e, Awaits p later e → ∃ start, generate p start = finish later main e) ∧
    (∀ d ∈ table.definitions, d ∈ table'.definitions → table.AgreeOn table' d.body.leaves →
      Generate.function table d = Generate.function table' d ∧
      ∀ later later' e e', Awaits p (d :: later) e → Awaits q (d :: later') e' →
        ∃ result, Writes (emitFunction d) e result ∧ Writes (emitFunction d) e' result) ∧
    (main = main' → table.AgreeOn table' (Stmt.leavesOfAll main) →
      Generate.mainBody table main = Generate.mainBody table' main' ∧
      ∀ e e', Awaits p [] e → Awaits q [] e' →
        ∃ result, Writes (emitMain main) e result ∧ Writes (emitMain main') e' result) := by
  refine ⟨fun later e awaits => (awaits.idle parted).2.2, fun d _ _ agree => ?_, fun same agree => ?_⟩
  · have equal := Generate.function_congr agree
    refine ⟨equal, fun later later' e e' awaits awaits' => ?_⟩
    obtain ⟨idle, listed, _⟩ := awaits.idle parted
    obtain ⟨idle', listed', _⟩ := awaits'.idle parted'
    have first := (emitFunction_ends d idle).writes
    have second := (emitFunction_ends d idle').writes
    rw [listed, equal] at first
    rw [listed'] at second
    exact ⟨_, first, second⟩
  · subst same
    have equal := Generate.mainBody_congr agree
    refine ⟨equal, fun e e' awaits awaits' => ?_⟩
    obtain ⟨idle, listed, _⟩ := awaits.idle parted
    obtain ⟨idle', listed', _⟩ := awaits'.idle parted'
    have first := (emitMain_ends main idle).writes
    have second := (emitMain_ends main idle').writes
    rw [listed, equal] at first
    rw [listed'] at second
    exact ⟨_, first, second⟩

/-- The function `twice` calls `g`. In one program it comes before `g` and with a variable
`a` in the main body; in the other it comes after a `g` with another body and a function
more. By then the texts differ, and what is written for it does not. -/
theorem separate_emission_sample :
    ∃ (p q : Program) (d : FunctionDef) (e e' : Emitter),
      p.definitions.map FunctionDef.name = ["twice", "g"] ∧
      q.definitions.map FunctionDef.name = ["g", "h", "twice"] ∧
      p.table.AgreeOn q.table d.body.leaves ∧ Awaits p (d :: p.definitions.tail) e ∧ Awaits q [d] e' ∧
      e.output ≠ e'.output ∧ ∃ result, Writes (emitFunction d) e result ∧ Writes (emitFunction d) e' result := by
  let call : Expr := .call (.ident "g" ⟨2, 24⟩) [.ident "a" ⟨2, 26⟩] ⟨2, 25⟩
  let d : FunctionDef := ⟨"twice", ["a"], .mk [.ret (some (.binary .add call call ⟨2, 29⟩)) ⟨2, 17⟩] ⟨2, 15⟩, ⟨2, 1⟩⟩
  let twice : Stmt := .func d.name d.params d.body d.location
  let g (value : Expr) : Stmt := .func "g" ["b"] (.mk [.ret (some value) ⟨1, 13⟩] ⟨1, 11⟩) ⟨1, 1⟩
  let h : Stmt := .func "h" [] (.mk [] ⟨1, 40⟩) ⟨1, 32⟩
  let p : Program := ⟨[.declare "a" (some (.str "s" ⟨1, 9⟩)) ⟨1, 1⟩, twice, g (.ident "b" ⟨1, 20⟩)]⟩
  let q : Program := ⟨[g (.int 7 ⟨1, 20⟩), h, twice]⟩
  have parted : Generate.extract .empty 0 p.statements = .ok (p.table, p.mainStatements) := by rfl
  have parted' : Generate.extract .empty 0 q.statements = .ok (q.table, q.mainStatements) := by rfl
  have agree : p.table.AgreeOn q.table d.body.leaves := by
    intro name called
    have only : name = "g" := by
      simpa [d, call, Block.leaves, Stmt.leavesOfAll, Stmt.leaves, Expr.leavesOfOption, Expr.leaves,
        Expr.leavesOfAll, Expr.calleeName?] using called
    rw [only]
    rfl
  have first : Awaits p (d :: p.definitions.tail) (upTo p [] new).2 := awaits_of_isOk rfl (by decide +kernel)
  have second : Awaits q [d] (upTo q q.definitions.dropLast new).2 := awaits_of_isOk rfl (by decide +kernel)
  refine ⟨p, q, d, _, _, rfl, rfl, agree, first, second, ?_, ?_⟩
  · decide +kernel
  · exact ((separate_emission parted parted').2.1 d (.head _) (.tail _ (.tail _ (.head _)))
      agree).2 _ _ _ _ first second

end Emitter

end ImpToC
