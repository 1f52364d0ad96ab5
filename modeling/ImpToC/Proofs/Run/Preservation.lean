import ImpToC.Proofs.C.Reading
import ImpToC.Proofs.Run.Simulation

/-!
A whole program and its C do the same. Bodies agree because their statements do,
and because the return that the generator adds takes the step that the end of a
body takes; calls agree by induction on how deep they may go.
-/
namespace ImpToC

open Run

theorem Run.Action.bind_ok {α β : Type} {x : Action α} {f : α → Action β} {s after : State} {b : β}
    (done : (x >>= f) s = (.ok b, after)) :
    ∃ a middle, x s = (.ok a, middle) ∧ f a middle = (.ok b, after) := by
  change Action.bind x f s = _ at done
  unfold Action.bind at done
  cases ran : x s with
  | mk result middle =>
    rw [ran] at done
    cases result with
    | error reason => cases done
    | ok a => exact ⟨a, middle, rfl, done⟩

/-- The return that ends a body takes a step and gives zero. -/
theorem C.Grammar.Stmt.execAll_ret_zero {platform : Platform} {call : Caller} (env : C.Env) :
    execAll platform call env [.ret (.int 0)] = tick >>= fun _ => pure (.returned (.int 0)) := by
  rw [execAll_singleton, exec]
  rfl

namespace Stmt

variable {strays : Prop} {platform : Platform} {context : Generate.Context} {source target : Caller}

theorem ret_exec_returns {shows : Bool} {value : Option Expr} {l : Location} {env : Frames Value}
    {s after : State} {flow : Flow Value}
    (done : (ret value l).exec platform source shows env s = (.ok flow, after)) :
    ∃ v, flow = .returned v := by
  cases value with
  | none =>
    rw [exec] at done
    obtain ⟨_, middle, _, done⟩ := Action.bind_ok done
    cases done
    exact ⟨_, rfl⟩
  | some value =>
    rw [exec] at done
    obtain ⟨_, middle, _, done⟩ := Action.bind_ok done
    obtain ⟨v, later, _, done⟩ := Action.bind_ok done
    cases done
    exact ⟨v, rfl⟩

/-- A body that ends in a return is never left otherwise. -/
theorem execAll_returns {shows : Bool} {ss : List Stmt} (ends : Generate.endsInReturn ss = true)
    {env : Frames Value} {s after : State} {flow : Flow Value}
    (done : execAll platform source shows env ss s = (.ok flow, after)) :
    ∃ v, flow = .returned v := by
  induction ss generalizing env s with
  | nil => cases ends
  | cons first rest ih =>
    rw [execAll] at done
    obtain ⟨step, middle, ran, done⟩ := Action.bind_ok done
    cases step with
    | returned v =>
      cases done
      exact ⟨v, rfl⟩
    | next inner =>
      cases rest with
      | cons second others => exact ih (by simpa [Generate.endsInReturn] using ends) done
      | nil =>
        cases first with
        | ret value l =>
          obtain ⟨v, same⟩ := ret_exec_returns ran
          cases same
        | _ => cases ends

/-- Arguments become variables of the types that the generator gives parameters. -/
theorem scopesOf_parameters {params : List (String × Value)}
    (integers : ∀ p ∈ params, p.2.type = .int) (env : Frames Value) :
    scopesOf (params.foldl (fun env (name, v) => env.declare name v) env) =
      (params.map Prod.fst).foldl (fun scopes name => scopes.bind name .int) (scopesOf env) := by
  induction params generalizing env with
  | nil => rfl
  | cons p params ih =>
    have integer := integers p (by simp)
    rw [List.foldl_cons, ih fun q member => integers q (by simp [member]), scopesOf_declare, integer,
      List.map_cons, List.foldl_cons]

theorem codeOf_parameters {params : List (String × Value)}
    (integers : ∀ p ∈ params, p.2.type = .int) (env : Frames Value) :
    codeOf (params.foldl (fun env (name, v) => env.declare name v) env) =
      params.foldl (fun env (name, v) => env.declare name ⟨.int, some v⟩) (codeOf env) := by
  induction params generalizing env with
  | nil => rfl
  | cons p params ih =>
    have integer := integers p (by simp)
    rw [List.foldl_cons, ih fun q member => integers q (by simp [member]), codeOf_declare, integer,
      List.foldl_cons]

/-- How the generator ends a body: with a return of zero, unless a return is there. -/
inductive Ended (ss : List Stmt) : List C.Stmt → Prop where
  | added : Ended ss [.ret (.int 0)]
  | present (returns : Generate.endsInReturn ss = true) : Ended ss []

variable (context) in
/-- A body and its C give the same integer. -/
theorem execBody_agrees (callers : CallersAgree strays context.functions source target)
    (linked : Linked platform target) {params : List (String × Value)} {ss : List Stmt}
    {codes ending : List C.Stmt} {final : Scopes} (integers : ∀ p ∈ params, p.2.type = .int)
    (free : ∀ p ∈ params, C.isReserved p.1 = false) (runnable : ∀ leaf ∈ leavesOfAll ss, leaf.Runnable strays)
    (done : Generate.statements context
      ((params.map Prod.fst).foldl (fun scopes name => scopes.bind name .int) Scopes.empty.push) ss =
        .ok (codes, final)) (ended : Ended ss ending) :
    Agrees strays (SameOf .int) (execBody platform source (!context.inFunction) params ss)
      (C.Grammar.Stmt.execBody platform target params (C.Stmt.treesOfAll (codes ++ ending))) := by
  have unreserved : ∀ name ∈ params.map Prod.fst, C.isReserved name = false := by simpa using free
  have named := Scopes.named_empty.parameters unreserved
  have start : scopesOf [[]] = Scopes.empty.push := rfl
  rw [← start, ← scopesOf_parameters integers] at done named
  have agrees := execAll_agrees named (fun s member => exec_agrees callers linked s fun leaf inside =>
    runnable leaf (mem_leavesOfAll.mpr ⟨s, member, inside⟩)) done
  have emptied : ([[]] : C.Env) = codeOf [[]] := rfl
  simp only [execBody, C.Grammar.Stmt.execBody, emptied, ← codeOf_parameters integers]
  cases ended with
  | added =>
    rw [C.Stmt.treesOfAll_append, C.Grammar.Stmt.execAll_append, bind_assoc]
    refine agrees.bind fun flow flow' flows => ?_
    cases flows with
    | returned => exact .pure ⟨rfl, rfl⟩
    | next typed =>
      simp only [C.Stmt.treesOfAll, C.Stmt.trees, C.Expr.tree, List.append_nil,
        C.Grammar.Stmt.execAll_ret_zero, bind_assoc]
      exact Agrees.tick.bind fun _ _ _ => .pure ⟨rfl, rfl⟩
  | present returns =>
    rw [List.append_nil]
    refine (agrees.knowing fun _ _ _ ran => execAll_returns returns ran).bind ?_
    rintro flow flow' ⟨flows, v, rfl⟩
    cases flows
    exact .pure ⟨rfl, rfl⟩

end Stmt

namespace Program

variable {platform : Platform} {p : Program} {c : C.Code}

/-- Apart from the functions without a name, the table holds what can be called. -/
theorem function?_eq_get? (p : Program) {name : String}
    (named : ∀ index, name ≠ Generate.anonymousName index) :
    p.function? name = (p.table.get? name).map fun d => (d.params, d.body.statements) := by
  rw [FunctionTable.get?_eq_find?]
  unfold function? table definitions
  generalize p.statements = ss
  generalize 0 = index
  induction ss generalizing index with
  | nil => rfl
  | cons s ss ih =>
    cases definition : s.isDefinition with
    | false =>
      rw [Generate.definitions_cons_other definition, ← ih, List.findSome?_cons]
      cases s with
      | func other params body l => cases definition
      | _ => rfl
    | true =>
      cases s with
      | func other params body l =>
        rw [Stmt.definitions, List.findSome?_cons, List.find?_cons]
        by_cases same : other = name
        · simp [same]
        · simp only [same, if_false, beq_eq_false_iff_ne.mpr same]
          exact ih index
      | expr value m =>
        cases value with
        | func params body l =>
          have other : ("func_" ++ toString index == name) = false :=
            beq_eq_false_iff_ne.mpr fun same => named index same.symm
          rw [Stmt.definitions, List.findSome?_cons, List.find?_cons, other]
          exact ih (index + 1)
        | _ => cases definition
      | _ => cases definition

/-- A name is found among the lowered functions as it is among the definitions. -/
theorem find?_lowered {table : FunctionTable} {ds : List FunctionDef} {fs : List C.Function}
    (lowered : List.Forall₂ (fun d f => Generate.function table d = .ok f) ds fs) (name : String) :
    (ds.find? (fun d => d.name == name) = none ∧ fs.find? (fun f => f.name = name) = none) ∨
      ∃ d f, ds.find? (fun d => d.name == name) = some d ∧
        fs.find? (fun f => f.name = name) = some f ∧ Generate.function table d = .ok f := by
  induction lowered with
  | nil => exact .inl ⟨rfl, rfl⟩
  | @cons d f ds fs first rest ih =>
    have sameName : f.name = d.name := by
      obtain ⟨_, _, _, _, _, rfl⟩ := Generate.function_ok.mp first
      rfl
    rw [List.find?_cons, List.find?_cons, sameName]
    by_cases same : d.name = name
    · exact .inr ⟨d, f, by simp [same], by simp [same], first⟩
    · rw [beq_eq_false_iff_ne.mpr same, decide_eq_false same]
      exact ih

theorem definition?_functions (fs : List C.Function) (name : String) :
    C.Grammar.definition? (fs.map C.Function.prototypeItem) name = none ∧
      C.Grammar.definition? (fs.map C.Function.definitionItem) name =
        (fs.find? fun f => f.name = name).map fun f => (f.params, C.Stmt.treesOfAll f.body) := by
  unfold C.Grammar.definition?
  induction fs with
  | nil => exact ⟨rfl, rfl⟩
  | cons f fs ih =>
    refine ⟨ih.1, ?_⟩
    rw [List.map_cons, List.findSome?_cons, List.find?_cons, C.Function.definitionItem, C.Grammar.Item.defines?]
    by_cases same : f.name = name
    · simp [same]
    · simp [same, ih.2]

/-- The file that code is written as defines the functions of the code and the main one. -/
theorem definition?_items (c : C.Code) (name : String) :
    C.Grammar.definition? c.items name =
      ((c.functions.find? fun f => f.name = name).map fun f => (f.params, C.Stmt.treesOfAll f.body)).or
        (if "main" = name then some ([], C.Stmt.treesOfAll c.main) else none) := by
  obtain ⟨prototypes, definitions⟩ := definition?_functions c.functions name
  unfold C.Grammar.definition? at *
  rw [C.Code.items, List.findSome?_append, List.findSome?_append, prototypes, definitions, Option.none_or,
    C.Function.definitionItem, List.findSome?_cons, C.Grammar.Item.defines?]
  by_cases main : "main" = name
  · simp [main]
  · simp [main]

/-- A function that can be called by a name has one that is not reserved. -/
theorem isReserved_of_find? (done : p.generate = .ok c) {name : String} {d : FunctionDef}
    (known : p.definitions.find? (fun d => d.name == name) = some d)
    (named : ∀ index, name ≠ Generate.anonymousName index) : C.isReserved name = false := by
  obtain ⟨joins, _, _⟩ := generate_ok.mp done
  obtain rfl : d.name = name := by simpa using List.find?_some known
  rcases name_of_definition (List.mem_of_find?_eq_some known) with ⟨_, among⟩ | ⟨index, given⟩
  · exact joins.unreserved _ _ _ _ among
  · exact absurd given (named index)

/-- What the program and its file define under a name: the same function or the main body,
or nothing. -/
inductive Defined (p : Program) (c : C.Code) (name : String) : Prop where
  | function {d : FunctionDef} {f : C.Function} (listed : p.table.get? name = some d)
      (member : d ∈ p.definitions) (lowered : Generate.function p.table d = .ok f)
      (free : C.isReserved name = false) (here : p.function? name = some (d.params, d.body.statements))
      (there : C.Grammar.definition? c.items name = some (f.params, C.Stmt.treesOfAll f.body))
  | main (same : name = "main") (here : p.function? name = none)
      (there : C.Grammar.definition? c.items name = some ([], C.Stmt.treesOfAll c.main))
  | nothing (other : name ≠ "main") (here : p.function? name = none)
      (there : C.Grammar.definition? c.items name = none)

theorem defined (done : p.generate = .ok c) {name : String}
    (named : ∀ index, name ≠ Generate.anonymousName index) : Defined p c name := by
  obtain ⟨_, functions, _⟩ := generate_ok.mp done
  have here := p.function?_eq_get? named
  have there := definition?_items c name
  rcases find?_lowered functions name with ⟨missing, absent⟩ | ⟨d, f, known, found, lowered⟩
  · have unknown : p.table.get? name = none := by
      rw [FunctionTable.get?_eq_find?]
      exact missing
    rw [unknown] at here
    rw [absent] at there
    by_cases main : name = "main"
    · subst main
      exact .main rfl here there
    · rw [if_neg (Ne.symm main)] at there
      exact .nothing main here there
  · have listed : p.table.get? name = some d := by
      rw [FunctionTable.get?_eq_find?]
      exact known
    rw [listed] at here
    rw [found] at there
    exact .function listed (List.mem_of_find?_eq_some known) lowered
      (isReserved_of_find? done known named) here there

variable {strays : Prop} {source target : Caller}

/-- The main body agrees with the main function, whatever calls do. -/
theorem mainBody_agrees (done : p.generate = .ok c) (runnable : ∀ leaf ∈ p.leaves, leaf.Runnable strays)
    (callers : CallersAgree strays p.table source target) (linked : Linked platform target) :
    Agrees strays (SameOf .int) (p.execMain platform source)
      (C.Grammar.Stmt.execBody platform target [] (C.Stmt.treesOfAll c.main)) := by
  obtain ⟨_, _, lowered⟩ := generate_ok.mp done
  obtain ⟨codes, final, inside, whole⟩ := Generate.mainBody_ok.mp lowered
  rw [execMain, whole]
  refine Stmt.execBody_agrees ⟨p.table, false⟩ callers linked (by simp) (by simp) (fun leaf member => ?_)
    inside .added
  obtain ⟨s, among, within⟩ := Stmt.mem_leavesOfAll.mp member
  exact runnable leaf (Stmt.mem_leavesOfAll.mpr ⟨s, (List.mem_filter.mp among).1, within⟩)

/-- A function agrees with its C, whatever calls inside it do. -/
theorem function_agrees (runnable : ∀ leaf ∈ p.leaves, leaf.Runnable strays)
    (callers : CallersAgree strays p.table source target) (linked : Linked platform target) {d : FunctionDef}
    {f : C.Function} (member : d ∈ p.definitions) (lowered : Generate.function p.table d = .ok f)
    {args : List Value} (many : d.params.length = args.length) (integers : ∀ v ∈ args, v.type = .int) :
    Agrees strays (SameOf .int) (Stmt.execBody platform source false (d.params.zip args) d.body.statements)
      (C.Grammar.Stmt.execBody platform target (f.params.zip args) (C.Stmt.treesOfAll f.body)) := by
  obtain ⟨scopes, codes, final, declared, inside, rfl⟩ := Generate.function_ok.mp lowered
  obtain ⟨_, each, rfl⟩ := Generate.parameters_ok.mp declared
  have names : (d.params.zip args).map Prod.fst = d.params := List.map_fst_zip (by omega)
  refine Stmt.execBody_agrees ⟨p.table, true⟩ callers linked (fun q among => ?_) (fun q among => ?_)
    (fun leaf among => ?_) (by rw [names]; exact inside) ?_
  · exact integers q.2 (List.of_mem_zip among).2
  · exact (each q.1 (List.of_mem_zip among).1).1
  · obtain ⟨s, listed, within⟩ := Stmt.mem_leavesOfAll.mp among
    refine runnable leaf (leaves_of_definition member ?_)
    exact List.mem_append_right _ (Block.leaves_of_mem listed within)
  · split
    · next returns => exact .present returns
    · exact .added

/-- What a call of a name does: on both sides it enters bodies that agree, or comes to nothing
of the program. -/
theorem bodies_agree (done : p.generate = .ok c) (runnable : ∀ leaf ∈ p.leaves, leaf.Runnable strays)
    (callers : CallersAgree strays p.table source target) (linked : Linked platform target) {name : String}
    {args : List Value} (named : ∀ index, name ≠ Generate.anonymousName index)
    (fitting : ∀ d, p.table.get? name = some d →
      d.params.length = args.length ∧ ((∀ v ∈ args, v.type = .int) ∨ strays)) :
    (p.bodies platform source name args = none ∧ C.Grammar.bodies platform c.items target name args = none) ∨
      ∃ x y, p.bodies platform source name args = some x ∧
        C.Grammar.bodies platform c.items target name args = some y ∧ Agrees strays (SameOf .int) x y := by
  unfold bodies C.Grammar.bodies
  cases defined done named with
  | @function d f listed member lowered free here there =>
    have other : name ≠ "main" := by
      rintro rfl
      cases free
    obtain ⟨many, typed⟩ := fitting d listed
    have sameParams : f.params = d.params := (FunctionDef.translateBody_lowered lowered).2.1
    rw [here, there, Option.map_some, C.Grammar.enter, sameParams]
    right
    by_cases integers : ∀ v ∈ args, v.type = .int
    · refine ⟨_, _, if_pos ⟨many, integers⟩, congrArg some (if_pos (.inr ⟨many, integers⟩)), ?_⟩
      have agrees := function_agrees runnable callers linked member lowered many integers
      rwa [sameParams] at agrees
    · refine ⟨_, _, if_neg fun fits => integers fits.2, congrArg some (if_neg ?_), ?_⟩
      · exact not_or.mpr ⟨other, fun fits => integers fits.2⟩
      · exact .stop fun _ => typed.resolve_left integers
  | main same here there =>
    rw [here, there, Option.map_some, C.Grammar.enter, if_pos same, if_pos (.inl same)]
    exact .inr ⟨_, _, rfl, rfl, mainBody_agrees done runnable callers linked⟩
  | nothing other here there =>
    rw [here, there, if_neg other]
    exact .inl ⟨rfl, rfl⟩

/-- A file does not define the functions that emitted code relies on, so calls reach them. -/
theorem calling_linked (done : p.generate = .ok c) (depth : Nat) :
    Linked platform (calling platform (C.Grammar.bodies platform c.items) depth) := by
  have words : ∀ name ∈ helpers, IsWord name := by decide
  intro name helper
  have undefined : C.Grammar.definition? c.items name = none := by
    cases defined done (words name helper).ne_anonymousName with
    | function _ _ _ free => cases (helper_reserved name helper).symm.trans free
    | main same =>
      subst same
      exact absurd helper (by decide)
    | nothing _ _ there => exact there
  funext args
  cases depth <;> simp only [calling, C.Grammar.bodies, undefined, Option.map_none]

/-- Calls agree however deep they may go: at each depth the bodies agree because
the calls in them do at the depth below. -/
theorem calling_agrees (platform : Platform) (done : p.generate = .ok c)
    (runnable : ∀ leaf ∈ p.leaves, leaf.Runnable strays) (depth : Nat) :
    CallersAgree strays p.table (calling platform (p.bodies platform) depth)
      (calling platform (C.Grammar.bodies platform c.items) depth) := by
  induction depth with
  | zero =>
    intro name args named helper fitting
    have callers : CallersAgree strays p.table (outside platform) (outside platform) :=
      fun _ args _ helper _ => .outside platform args helper
    rw [calling, calling]
    rcases bodies_agree done runnable callers (fun _ _ => rfl) named fitting with
      ⟨here, there⟩ | ⟨x, y, here, there, _⟩
    · rw [here, there]
      exact .outside platform args helper
    · rw [here, there]
      exact .stop (by simp)
  | succ depth ih =>
    intro name args named helper fitting
    rw [calling, calling]
    rcases bodies_agree done runnable ih (calling_linked done depth) named fitting with
      ⟨here, there⟩ | ⟨x, y, here, there, agrees⟩
    · rw [here, there]
      exact .outside platform args helper
    · rw [here, there]
      exact Agrees.tick.bind fun _ _ _ => agrees.mono fun v w same => ⟨same.1, .inl same.2⟩

/-- An accepted program and its C look the same from outside, for every bound on
the steps and on every platform, and get stuck only where they stray. -/
theorem run_items (done : p.generate = .ok c) (runnable : ∀ leaf ∈ p.leaves, leaf.Runnable strays)
    (platform : Platform) (bound : Nat) :
    C.Grammar.run platform bound c.items = p.run platform bound ∧
      ((p.run platform bound).stopped = some .stuck → strays) := by
  have word : IsWord "main" := by decide
  have main : C.Grammar.definition? c.items "main" = some ([], C.Stmt.treesOfAll c.main) := by
    cases defined done word.ne_anonymousName with
    | function _ _ _ free => cases free
    | main _ _ there => exact there
    | nothing other => exact absurd rfl other
  have agrees := mainBody_agrees done runnable (calling_agrees platform done runnable bound)
    (calling_linked done bound)
  unfold C.Grammar.run C.Grammar.execMain
  rw [main]
  exact agrees.outcome_eq bound

end Program

/-- What a text can hold can run, once no string holds the character that ends one in C. -/
theorem Leaf.Readable.runnable {strays : Prop} {leaf : Leaf} (readable : leaf.Readable)
    (noNul : ∀ text, leaf = .str text → '\x00' ∉ text.toList)
    (helper : ∀ name ∈ helpers, leaf = .callee name → strays) : leaf.Runnable strays := by
  cases leaf with
  | name word => trivial
  | int value => trivial
  | str text => exact ⟨readable, noNul text rfl⟩
  | callee word => exact ⟨readable.1.ne_anonymousName, fun member => helper word member rfl⟩

/-- Integers without bounds, a division by zero that ends the program, and functions
from outside that do nothing. -/
def Run.Platform.plain : Platform where
  arithmetic
    | .add, a, b => some (a + b)
    | .sub, a, b => some (a - b)
    | .mul, a, b => some (a * b)
    | .div, a, b => if b = 0 then none else some (a.tdiv b)
    | _, _, _ => none
  unset _ _ := 0
  foreign _ _ _ := .returns "" 0

end ImpToC
