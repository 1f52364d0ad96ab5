import ImpToC.Proofs.C.Reading
import ImpToC.Proofs.Emission.Agreement

/-!
Whole programs as the emitter writes them. Between two bodies it is idle: no scope is
open, lines are not indented, and no function is being written. A body that is accepted
brings it back there. A fault leaves the scopes that the generator keeps with it, and the
text of a program without one is that of its C.
-/
namespace ImpToC

namespace Generate

variable {frame : List (String × ValueType)} {outer : List (List (String × ValueType))}

/-- The variables that parameters are, the last one first. -/
def parameterFrame (names : List String) : List (String × ValueType) :=
  (names.map fun name => (name, .int)).reverse

theorem declare_scopes {name : String} {type : ValueType} {l : Location} {after : Scopes}
    (declared : declare ⟨frame :: outer⟩ name type l = .ok after) :
    after = ⟨((name, type) :: frame) :: outer⟩ :=
  (declare?_scopes (declare_ok.mp declared).2).2

/-- Parameters that could be declared are the whole of the innermost frame, the last one first. -/
theorem parameters_scopes {names : List String} {l : Location} {after : Scopes}
    (declared : parameters ⟨frame :: outer⟩ l names = .ok after) :
    after = ⟨(parameterFrame names ++ frame) :: outer⟩ := by
  induction names generalizing frame with
  | nil =>
    cases declared
    rfl
  | cons name names ih =>
    rw [parameters] at declared
    cases first : declare ⟨frame :: outer⟩ name .int l with
    | error error =>
      rw [first] at declared
      cases declared
    | ok middle =>
      rw [first, declare_scopes first] at declared
      rw [ih declared]
      simp [parameterFrame]

/-- A function fails at one of its parameters, or in its body with all of them declared. -/
theorem function_failed {table : FunctionTable} {d : FunctionDef} {failure : Failure}
    (failed : function table d = .error failure) :
    parameters Scopes.empty.push d.location d.params = .error failure ∨
      parameters Scopes.empty.push d.location d.params = .ok ⟨[parameterFrame d.params]⟩ ∧
        statements ⟨table, true⟩ ⟨[parameterFrame d.params]⟩ d.body.statements = .error failure := by
  unfold function at failed
  rcases bind_eq_error.mp failed with fault | ⟨scopes, declared, failed⟩
  · exact .inl fault
  · right
    obtain rfl : scopes = ⟨[parameterFrame d.params]⟩ := by
      simpa [Scopes.empty] using parameters_scopes declared
    refine ⟨declared, ?_⟩
    rcases bind_eq_error.mp failed with failed | ⟨_, _, finished⟩
    · exact failed
    · cases finished

theorem mainBody_failed {table : FunctionTable} {ss : List Stmt} {failure : Failure}
    (failed : mainBody table ss = .error failure) :
    statements ⟨table, false⟩ Scopes.empty.push ss = .error failure := by
  unfold mainBody at failed
  rcases bind_eq_error.mp failed with failed | ⟨_, _, finished⟩
  · exact failed
  · cases finished

end Generate

namespace Emitter

open Generate (Failure)

theorem declareParameters_follows (l : Location) (names : List String) (e : Emitter) :
    Follows (declareParameters l names) e ((Generate.parameters e.symbols l names).map fun scopes => ("", scopes)) := by
  induction names generalizing e with
  | nil => exact .nothing
  | cons name names ih =>
    rw [declareParameters, Generate.parameters]
    cases declared : Generate.declare e.symbols name .int l with
    | error error => exact .failed_seq (.declare_failed declared)
    | ok middle =>
      have others := ih (e.wrote "" middle)
      rw [wrote_symbols] at others
      dsimp only
      cases later : Generate.parameters middle l names with
      | error failure =>
        rw [later] at others
        exact .seq_failed (.declare declared) others
      | ok scopes =>
        rw [later] at others
        exact .seq (.declare declared) others

/-- The last line of a body that does not end in a return. -/
theorem ending_follows (returns : Bool) (e : Emitter) :
    Follows (if returns then pure () else line "return 0;") e
      (.ok (if returns then "" else C.line e.indent "return 0;", e.symbols)) := by
  cases returns with
  | true => exact .nothing
  | false => exact .line "return 0;"

theorem renderAll_ending (depth : Nat) (codes : List C.Stmt) (returns : Bool) :
    C.Stmt.renderAll depth (codes ++ if returns then [] else [.ret (.int 0)]) =
      C.Stmt.renderAll depth codes ++ if returns then "" else C.line depth "return 0;" := by
  cases returns with
  | true => simp
  | false => exact C.Stmt.renderAll_concat depth codes _

section Bodies

variable {e : Emitter} (opened : e.symbols = Scopes.empty.push)
include opened

/-- The body of a function is written as its code, and the scopes it leaves are one frame too many. -/
theorem emitBody_follows {d : FunctionDef} {f : C.Function} (inside : e.inFunction = true)
    (done : Generate.function e.functions d = .ok f) :
    ∃ scopes, Follows (emitBody d) e (.ok (C.Stmt.renderAll e.indent f.body, scopes)) ∧
      scopes.pop = .empty := by
  obtain ⟨scopes, codes, final, accepted, lowered, rfl⟩ := Generate.function_ok.mp done
  have declared := declareParameters_follows d.location d.params e
  rw [opened, accepted] at declared
  have body := statements_follow d.body.statements (e.wrote "" scopes)
  have same : e.context = ⟨e.functions, true⟩ := by rw [context, inside]
  rw [wrote_context, wrote_symbols, same, lowered] at body
  have whole := declared.seq (body.seq (ending_follows (Generate.endsInReturn d.body.statements) _))
  rw [Generate.parameters_scopes accepted] at lowered
  refine ⟨final, ?_, ?_⟩
  · rw [renderAll_ending, ← String.empty_append (s := _ ++ _)]
    exact whole
  · rw [Generate.statements_scopes lowered]
    rfl

/-- Where a function has no code, the emitter stops in its body with the same fault and the same
scopes. -/
theorem emitBody_failed {d : FunctionDef} {failure : Failure} (inside : e.inFunction = true)
    (failed : Generate.function e.functions d = .error failure) :
    Follows (emitBody d) e (.error failure) := by
  have declared := declareParameters_follows d.location d.params e
  rw [opened] at declared
  rcases Generate.function_failed failed with failed | ⟨accepted, failed⟩
  · rw [failed] at declared
    exact declared.failed_seq
  · rw [accepted] at declared
    have body := statements_follow d.body.statements (e.wrote "" ⟨[Generate.parameterFrame d.params]⟩)
    have same : e.context = ⟨e.functions, true⟩ := by rw [context, inside]
    rw [wrote_context, wrote_symbols, same, failed] at body
    exact declared.seq_failed body.failed_seq

theorem emitMainBody_follows {ss : List Stmt} {body : List C.Stmt} (outside : e.inFunction = false)
    (done : Generate.mainBody e.functions ss = .ok body) :
    ∃ scopes, Follows (emitMainBody ss) e (.ok (C.Stmt.renderAll e.indent body, scopes)) ∧
      scopes.pop = .empty := by
  obtain ⟨codes, final, lowered, rfl⟩ := Generate.mainBody_ok.mp done
  have written := statements_follow ss e
  have same : e.context = ⟨e.functions, false⟩ := by rw [context, outside]
  rw [opened, same, lowered] at written
  refine ⟨final, ?_, ?_⟩
  · rw [C.Stmt.renderAll_concat]
    exact written.seq (.line _)
  · rw [Generate.statements_scopes lowered]
    rfl

theorem emitMainBody_failed {ss : List Stmt} {failure : Failure} (outside : e.inFunction = false)
    (failed : Generate.mainBody e.functions ss = .error failure) :
    Follows (emitMainBody ss) e (.error failure) := by
  have written := statements_follow ss e
  have same : e.context = ⟨e.functions, false⟩ := by rw [context, outside]
  rw [opened, same, Generate.mainBody_failed failed] at written
  exact written.failed_seq

end Bodies

/-- An emitter between two bodies. -/
structure Idle (e : Emitter) : Prop where
  symbols : e.symbols = .empty
  indent : e.indent = 0
  inFunction : e.inFunction = false

theorem Idle.wrote {e : Emitter} (idle : e.Idle) (text : String) : (e.wrote text .empty).Idle :=
  ⟨rfl, idle.indent, idle.inFunction⟩

/-- What becomes of a part of a program that is written by an idle emitter: it is idle
again, with more text, or a fault leaves the scopes that were open. -/
inductive Ends (action : Action Unit) (e : Emitter) : Except Failure String → Prop where
  | done {text : String} (run : action e = (.ok (), e.wrote text .empty)) : Ends action e (.ok text)
  | failed {failure : Failure} {after : Emitter} (run : action e = (.error failure.error, after))
      (left : after.symbols = failure.scopes) : Ends action e (.error failure)

namespace Ends

variable {e : Emitter} {a b : Action Unit} {text : String} {failure : Failure}

theorem nothing (idle : e.Idle) : Ends (pure ()) e (.ok "") := by
  apply Ends.done
  rw [← idle.symbols, wrote_nothing]
  rfl

theorem text_only (idle : e.Idle) (text : String) : Ends (write text) e (.ok text) := by
  apply Ends.done
  rw [← idle.symbols]
  rfl

theorem line (idle : e.Idle) (text : String) : Ends (Emitter.line text) e (.ok (C.line 0 text)) := by
  apply Ends.done
  rw [← idle.symbols, ← idle.indent]
  rfl

/-- One action after the other writes one text behind the other. -/
theorem seq {more : String} (first : Ends a e (.ok text)) (second : Ends b (e.wrote text .empty) (.ok more)) :
    Ends (do a; b) e (.ok (text ++ more)) := by
  cases first with
  | done run =>
    cases second with
    | done run' =>
      apply Ends.done
      rw [bind_ok run, run', wrote_wrote]

theorem seq_failed (first : Ends a e (.ok text)) (second : Ends b (e.wrote text .empty) (.error failure)) :
    Ends (do a; b) e (.error failure) := by
  cases first with
  | done run =>
    cases second with
    | failed run' left => exact .failed ((bind_ok run).trans run') left

theorem failed_seq (first : Ends a e (.error failure)) : Ends (do a; b) e (.error failure) := by
  cases first with
  | failed run left => exact .failed (bind_error run) left

theorem reading {next : Emitter → Action Unit} {result : Except Failure String}
    (later : Ends (next e) e result) : Ends (get >>= next) e result := by
  have run : (get >>= next) e = next e e := rfl
  cases later with
  | done run' => exact .done (run.trans run')
  | failed run' left => exact .failed (run.trans run') left

end Ends

theorem signature_of_function {table : FunctionTable} {d : FunctionDef} {f : C.Function}
    (lowered : Generate.function table d = .ok f) : f.signature = signature d := by
  obtain ⟨_, _, _, _, _, rfl⟩ := Generate.function_ok.mp lowered
  rfl

/-- A whole function, from the empty line in front of it to its closing brace. -/
theorem emitFunction_ends (d : FunctionDef) {e : Emitter} (idle : e.Idle) :
    Ends (emitFunction d) e ((Generate.function e.functions d).map C.Function.render) := by
  let opened : Emitter :=
    ⟨e.output ++ "\n" ++ C.line e.indent (signature d ++ r" {"), 1, e.symbols.push, e.functions, e.anonymous, true⟩
  have run : emitFunction d e = (do
      emitBody d
      leaveBody
      modify fun e => { e with inFunction := false }
      write (C.line 0 r"}") : Action Unit) opened := rfl
  have fresh : opened.symbols = Scopes.empty.push := by
    change e.symbols.push = _
    rw [idle.symbols]
  cases result : Generate.function e.functions d with
  | error failure =>
    cases emitBody_failed fresh rfl result with
    | failed text stopped => exact .failed (run.trans (bind_error stopped)) rfl
  | ok f =>
    obtain ⟨scopes, written, closes⟩ := emitBody_follows fresh rfl result
    cases written with
    | done finished =>
      apply Ends.done
      rw [run, bind_ok finished]
      change (Except.ok (), _) = _
      simp only [opened, wrote, closes, idle.indent, idle.inFunction, C.Function.render,
        signature_of_function result, String.append_assoc]

/-- The main function ends with a return whatever its last statement is. -/
theorem emitMain_ends (body : List Stmt) {e : Emitter} (idle : e.Idle) :
    Ends (emitMain body) e ((Generate.mainBody e.functions body).map fun codes =>
      "\n" ++ C.line 0 r"int main() {" ++ C.Stmt.renderAll 1 codes ++ C.line 0 r"}") := by
  let opened : Emitter :=
    ⟨e.output ++ ("\n" ++ C.line 0 r"int main() {"), 1, e.symbols.push, e.functions, e.anonymous, e.inFunction⟩
  have run : emitMain body e = (do
      emitMainBody body
      leaveBody
      write (C.line 0 r"}") : Action Unit) opened := rfl
  have fresh : opened.symbols = Scopes.empty.push := by
    change e.symbols.push = _
    rw [idle.symbols]
  cases result : Generate.mainBody e.functions body with
  | error failure =>
    cases emitMainBody_failed fresh idle.inFunction result with
    | failed text stopped => exact .failed (run.trans (bind_error stopped)) rfl
  | ok codes =>
    obtain ⟨scopes, written, closes⟩ := emitMainBody_follows fresh idle.inFunction result
    cases written with
    | done finished =>
      apply Ends.done
      rw [run, bind_ok finished]
      change (Except.ok (), _) = _
      simp only [opened, wrote, closes, idle.indent, String.append_assoc]

theorem emitFunctions_ends (ds : List FunctionDef) {e : Emitter} (idle : e.Idle) :
    Ends (emitFunctions ds) e
      ((Generate.functions e.functions ds).map fun fs => String.join (fs.map C.Function.render)) := by
  induction ds generalizing e with
  | nil => exact .nothing idle
  | cons d ds ih =>
    rw [emitFunctions, Generate.functions]
    have first := emitFunction_ends d idle
    cases result : Generate.function e.functions d with
    | error failure =>
      rw [result] at first
      exact first.failed_seq
    | ok f =>
      rw [result] at first
      have others := ih (idle.wrote f.render)
      rw [wrote_functions] at others
      cases later : Generate.functions e.functions ds with
      | error failure =>
        rw [later] at others
        exact first.seq_failed others
      | ok fs =>
        rw [later] at others
        have whole := first.seq others
        rw [← String.join_cons, ← List.map_cons] at whole
        exact whole

theorem register_run (d : FunctionDef) (e : Emitter) :
    register d e =
      match Generate.register e.functions d with
      | .ok table => (.ok (), { e with functions := table })
      | .error error => (.error error, e) := by
  change (found (Generate.register e.functions d) >>= fun table =>
    modify fun e => { e with functions := table } : Action Unit) e = _
  cases Generate.register e.functions d with
  | error error => rfl
  | ok table => rfl

/-- Extraction finds what the generator finds, and of the emitter it changes the table and
the count of functions without a name. -/
inductive Extracts (ss : List Stmt) (e : Emitter) : Except GenError (FunctionTable × List Stmt) → Prop where
  | done {table : FunctionTable} {rest : List Stmt} (count : Nat)
      (run : extractFunctions ss e = (.ok rest, { e with functions := table, anonymous := count })) :
      Extracts ss e (.ok (table, rest))
  | failed {error : GenError} (table : FunctionTable) (count : Nat)
      (run : extractFunctions ss e = (.error error, { e with functions := table, anonymous := count })) :
      Extracts ss e (.error error)

theorem extractFunctions_cons_other {s : Stmt} {ss : List Stmt} (plain : s.isDefinition = false) :
    extractFunctions (s :: ss) = (do let rest ← extractFunctions ss; return s :: rest) := by
  cases s with
  | func name params body l => cases plain
  | expr value l =>
    cases value with
    | func params body m => cases plain
    | _ => rfl
  | _ => rfl

/-- A function joins the table, and the others are taken out after it. -/
theorem Extracts.registered {d : FunctionDef} {s : Stmt} {ss : List Stmt} {e : Emitter} (count : Nat)
    (run : extractFunctions (s :: ss) e =
      (do register d; extractFunctions ss : Action (List Stmt)) { e with anonymous := count })
    (others : ∀ table, Extracts ss { e with functions := table, anonymous := count }
      (Generate.extract table count ss)) :
    Extracts (s :: ss) e (do
      let table ← Generate.register e.functions d
      Generate.extract table count ss) := by
  have first := register_run d { e with anonymous := count }
  cases joined : Generate.register e.functions d with
  | error error =>
    simp only [joined] at first
    exact .failed e.functions count (run.trans (bind_error first))
  | ok table =>
    simp only [joined] at first
    have later := others table
    change Extracts _ _ (Generate.extract table count ss)
    cases result : Generate.extract table count ss with
    | error error =>
      rw [result] at later
      cases later with
      | failed table count run' => exact .failed table count ((run.trans (bind_ok first)).trans run')
    | ok parts =>
      rw [result] at later
      cases later with
      | done count run' => exact .done count ((run.trans (bind_ok first)).trans run')

/-- The table that is filled step by step is the one that `Generate.extract` gives, and at a fault
both have told the same one. -/
theorem extractFunctions_extracts (ss : List Stmt) (e : Emitter) :
    Extracts ss e (Generate.extract e.functions e.anonymous ss) := by
  induction ss generalizing e with
  | nil => exact .done e.anonymous rfl
  | cons s ss ih =>
    cases definition : s.isDefinition with
    | false =>
      rw [Generate.extract_cons_other definition]
      have others := ih e
      cases result : Generate.extract e.functions e.anonymous ss with
      | error error =>
        rw [result] at others
        cases others with
        | failed table count run =>
          apply Extracts.failed table count
          rw [extractFunctions_cons_other definition, bind_error run]
      | ok parts =>
        rw [result] at others
        cases others with
        | done count run =>
          apply Extracts.done count
          rw [extractFunctions_cons_other definition, bind_ok run]
          rfl
    | true =>
      cases s with
      | func name params body l =>
        rw [Generate.extract]
        by_cases reserved : C.isReserved name = true
        · rw [if_pos reserved]
          apply Extracts.failed e.functions e.anonymous
          rw [extractFunctions, if_pos reserved]
          rfl
        · rw [if_neg reserved]
          apply Extracts.registered e.anonymous
          · rw [extractFunctions, if_neg reserved]
          · exact fun table => ih _
      | expr value m =>
        cases value with
        | func params body l =>
          rw [Generate.extract]
          exact .registered (e.anonymous + 1) rfl fun table => ih _
        | _ => cases definition
      | _ => cases definition

theorem emitPrototypes_ends (ds : List FunctionDef) {e : Emitter} (idle : e.Idle) :
    Ends (emitPrototypes ds) e (.ok (String.join (ds.map fun d => C.line 0 (signature d ++ ";")))) := by
  induction ds generalizing e with
  | nil => exact .nothing idle
  | cons d ds ih =>
    rw [emitPrototypes, List.map_cons, String.join_cons]
    exact .seq (.line idle _) (ih (idle.wrote _))

/-- The prototypes, as they are told by the definitions. -/
def prototypes (ds : List FunctionDef) : String :=
  if ds.isEmpty then "" else "\n" ++ String.join (ds.map fun d => C.line 0 (signature d ++ ";"))

/-- Prototypes need no bodies: names and parameters of the definitions are those of the code. -/
theorem prototypes_eq {table : FunctionTable} {ds : List FunctionDef} {fs : List C.Function}
    (lowered : Generate.functions table ds = .ok fs) (main : List C.Stmt) :
    C.Code.prototypes ⟨fs, main⟩ = prototypes ds := by
  have each := Generate.functions_ok.mp lowered
  have lines : fs.map C.Function.prototype = ds.map fun d => C.line 0 (signature d ++ ";") := by
    clear lowered
    induction each with
    | nil => rfl
    | cons first _ ih => rw [List.map_cons, List.map_cons, ih, C.Function.prototype, signature_of_function first]
  rw [C.Code.prototypes, prototypes, lines]
  cases each with
  | nil => rfl
  | cons _ _ => rfl

theorem forwardDeclarations_ends {e : Emitter} (idle : e.Idle) :
    Ends forwardDeclarations e (.ok (prototypes e.functions.definitions)) := by
  unfold forwardDeclarations
  apply Ends.reading
  rw [prototypes]
  by_cases empty : e.functions.definitions.isEmpty = true
  · rw [if_pos empty, if_pos (show e.functions.isEmpty = true from empty)]
    exact .nothing idle
  · rw [if_neg empty, if_neg (show ¬ e.functions.isEmpty = true from empty)]
    exact .seq (.text_only idle "\n") (emitPrototypes_ends _ (idle.wrote "\n"))

/-- A program is written as its code is rendered, or left where the first fault is. -/
theorem emitProgram_ends {e : Emitter} (idle : e.Idle) (main : List Stmt) :
    Ends (emitProgram main) e (do
      let functions ← Generate.functions e.functions e.functions.definitions
      let main ← Generate.mainBody e.functions main
      return C.Code.render ⟨functions, main⟩) := by
  have preamble := Ends.text_only idle C.preamble
  have declared := forwardDeclarations_ends (idle.wrote C.preamble)
  have ready := (idle.wrote C.preamble).wrote (prototypes e.functions.definitions)
  have functions := emitFunctions_ends e.functions.definitions ready
  rw [wrote_functions, wrote_functions] at functions
  cases lowered : Generate.functions e.functions e.functions.definitions with
  | error failure =>
    rw [lowered] at functions
    exact preamble.seq_failed (declared.seq_failed (.reading functions.failed_seq))
  | ok fs =>
    rw [lowered] at functions
    have body := emitMain_ends main (ready.wrote (String.join (fs.map C.Function.render)))
    rw [wrote_functions, wrote_functions, wrote_functions] at body
    cases result : Generate.mainBody e.functions main with
    | error failure =>
      rw [result] at body
      exact preamble.seq_failed (declared.seq_failed (.reading (functions.seq_failed body)))
    | ok codes =>
      rw [result] at body
      have whole : Ends (emitProgram main) e (.ok _) :=
        preamble.seq (declared.seq (.reading (functions.seq body)))
      change Ends _ e (.ok (C.Code.render ⟨fs, codes⟩))
      rw [C.Code.render, prototypes_eq lowered]
      simp only [wrote_functions, String.append_assoc] at whole ⊢
      exact whole

/-- The emitter gives the text of the generator or its fault, and what is in scope in the
end is what the generator remembers. -/
theorem generate_run (p : Program) (e : Emitter) (g : Generator) :
    (generate p e).1 = (g.run p).1 ∧ (generate p e).2.symbols = (g.run p).2.scopes := by
  have run : generate p e = (do
      let main ← extractFunctions p.statements
      emitProgram main
      modifyGet fun e => (e.output, { e with output := "" }) : Action String) new := rfl
  rw [run, Generator.run, Program.generate]
  have extracts : Extracts p.statements new (Generate.extract .empty 0 p.statements) :=
    extractFunctions_extracts p.statements new
  cases parted : Generate.extract .empty 0 p.statements with
  | error error =>
    rw [parted] at extracts
    cases extracts with
    | failed table count stopped =>
      rw [bind_error stopped]
      exact ⟨rfl, rfl⟩
  | ok parts =>
    obtain ⟨table, main⟩ := parts
    rw [parted] at extracts
    cases extracts with
    | done count finished =>
      have idle : Idle { new with functions := table, anonymous := count } := ⟨rfl, rfl, rfl⟩
      have ends := emitProgram_ends idle main
      rw [bind_ok finished]
      dsimp only at ends ⊢
      cases lowered : Generate.functions table table.definitions with
      | error failure =>
        rw [lowered] at ends
        cases ends with
        | failed stopped left =>
          rw [bind_error stopped]
          exact ⟨rfl, left⟩
      | ok functions =>
        rw [lowered] at ends
        cases result : Generate.mainBody table main with
        | error failure =>
          rw [result] at ends
          cases ends with
          | failed stopped left =>
            rw [bind_error stopped]
            exact ⟨rfl, left⟩
        | ok codes =>
          rw [result] at ends
          cases ends with
          | done written =>
            rw [bind_ok written]
            exact ⟨congrArg Except.ok String.empty_append, rfl⟩

end Emitter

end ImpToC
