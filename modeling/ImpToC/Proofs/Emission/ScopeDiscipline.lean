import ImpToC.Proofs.Emission.Programs

/-!
What is in scope when the emitter stops. A statement puts all back but the text and the
variable it declares. A program that is accepted, or that has functions which cannot be
told apart, leaves no scope behind. Any other fault leaves one, the outermost of the body
it is in, as it was in front of the fault. What was left from an earlier program plays no
part.
-/
namespace ImpToC

namespace Generate

variable {context : Context} {frame : List (String × ValueType)} {outer : List (List (String × ValueType))}

/-- Where parameters fail: those in front of the one at fault are declared. -/
theorem parameters_failed {names : List String} {l : Location} {failure : Failure}
    (failed : parameters ⟨frame :: outer⟩ l names = .error failure) :
    ∃ before name after, names = before ++ name :: after ∧
      parameters ⟨frame :: outer⟩ l before = .ok failure.scopes ∧
      declare failure.scopes name .int l = .error failure.error := by
  induction names generalizing frame with
  | nil => cases failed
  | cons name names ih =>
    rw [parameters] at failed
    cases first : declare ⟨frame :: outer⟩ name .int l with
    | error error =>
      rw [first] at failed
      cases failed
      exact ⟨[], name, names, rfl, rfl, first⟩
    | ok middle =>
      obtain rfl := declare_scopes first
      rw [first] at failed
      obtain ⟨before, other, after, split, declared, fault⟩ := ih failed
      refine ⟨name :: before, other, after, by rw [split, List.cons_append], ?_, fault⟩
      rw [parameters, first]
      exact declared

theorem functions_accepted {table : FunctionTable} {ds : List FunctionDef} {fs : List C.Function}
    (lowered : functions table ds = .ok fs) : ∀ d ∈ ds, ∃ f, function table d = .ok f := by
  have each := functions_ok.mp lowered
  clear lowered
  induction each with
  | nil => simp
  | cons first _ ih => exact List.forall_mem_cons.mpr ⟨⟨_, first⟩, ih⟩

theorem functions_failed {table : FunctionTable} {ds : List FunctionDef} {failure : Failure}
    (failed : functions table ds = .error failure) :
    ∃ earlier d later, ds = earlier ++ d :: later ∧ (∀ d ∈ earlier, ∃ f, function table d = .ok f) ∧
      function table d = .error failure := by
  induction ds with
  | nil => cases failed
  | cons d ds ih =>
    rw [functions] at failed
    rcases bind_eq_error.mp failed with fault | ⟨f, first, failed⟩
    · exact ⟨[], d, ds, rfl, by simp, fault⟩
    · rcases bind_eq_error.mp failed with failed | ⟨_, _, finished⟩
      · obtain ⟨earlier, other, later, split, accepted, fault⟩ := ih failed
        refine ⟨d :: earlier, other, later, by rw [split, List.cons_append], ?_, fault⟩
        exact List.forall_mem_cons.mpr ⟨⟨f, first⟩, accepted⟩
      · cases finished

/-- Statements that stand in a scope with the variables `frame` stop at one of them. Those
in front of it are lowered, and `left` are the variables of the scope by then. -/
def StopsAmong (context : Context) (frame : List (String × ValueType)) (ss : List Stmt) (error : GenError)
    (left : List (String × ValueType)) : Prop :=
  ∃ before s after codes, ss = before ++ s :: after ∧ left = Stmt.variablesAfter [] frame before ∧
    statements context ⟨[frame]⟩ before = .ok (codes, ⟨[left]⟩) ∧
    statement context ⟨[left]⟩ s = .error error

theorem stopsAmong_of_failed {ss : List Stmt} {failure : Failure}
    (failed : statements context ⟨[frame]⟩ ss = .error failure) :
    ∃ left, failure.scopes = ⟨[left]⟩ ∧ StopsAmong context frame ss failure.error left := by
  obtain ⟨before, s, after, codes, split, scopes, lowered, fault⟩ := statements_failed failed
  rw [scopes] at lowered fault
  exact ⟨_, scopes, before, s, after, codes, split, rfl, lowered, fault⟩

end Generate

namespace Program

/-- Where a program whose functions can be told apart has its first fault, and the
variables in the outermost scope of the function or of the main body in front of it. -/
inductive StopsWith (p : Program) (error : GenError) (left : List (String × ValueType)) : Prop where
  | parameter {earlier later : List FunctionDef} {d : FunctionDef} {before after : List String} {name : String}
      (order : p.definitions = earlier ++ d :: later)
      (accepted : ∀ d ∈ earlier, ∃ f, Generate.function p.table d = .ok f)
      (split : d.params = before ++ name :: after) (bound : left = Generate.parameterFrame before)
      (declared : Generate.parameters Scopes.empty.push d.location before = .ok ⟨[left]⟩)
      (fault : Generate.declare ⟨[left]⟩ name .int d.location = .error error) : StopsWith p error left
  | function {earlier later : List FunctionDef} {d : FunctionDef}
      (order : p.definitions = earlier ++ d :: later)
      (accepted : ∀ d ∈ earlier, ∃ f, Generate.function p.table d = .ok f)
      (declared : Generate.parameters Scopes.empty.push d.location d.params =
        .ok ⟨[Generate.parameterFrame d.params]⟩)
      (stops : Generate.StopsAmong ⟨p.table, true⟩ (Generate.parameterFrame d.params) d.body.statements
        error left) : StopsWith p error left
  | main (accepted : ∀ d ∈ p.definitions, ∃ f, Generate.function p.table d = .ok f)
      (stops : Generate.StopsAmong ⟨p.table, false⟩ [] p.mainStatements error left) : StopsWith p error left

theorem stopsWith_of_function {p : Program} {failure : Generate.Failure} {earlier later : List FunctionDef}
    {d : FunctionDef} (order : p.definitions = earlier ++ d :: later)
    (accepted : ∀ d ∈ earlier, ∃ f, Generate.function p.table d = .ok f)
    (failed : Generate.function p.table d = .error failure) :
    ∃ left, failure.scopes = ⟨[left]⟩ ∧ p.StopsWith failure.error left := by
  rcases Generate.function_failed failed with failed | ⟨declared, failed⟩
  · obtain ⟨before, name, after, split, declared, fault⟩ := Generate.parameters_failed failed
    have scopes : failure.scopes = ⟨[Generate.parameterFrame before]⟩ := by
      simpa [Scopes.empty] using Generate.parameters_scopes declared
    rw [scopes] at declared fault
    exact ⟨_, scopes, .parameter order accepted split rfl declared fault⟩
  · obtain ⟨left, scopes, stops⟩ := Generate.stopsAmong_of_failed failed
    exact ⟨left, scopes, .function order accepted declared stops⟩

/-- What the generator keeps with a fault. -/
theorem generate_failed {p : Program} {failure : Generate.Failure} (failed : p.generate = .error failure) :
    (Generate.extract .empty 0 p.statements = .error failure.error ∧ failure.scopes = .empty) ∨
      Generate.extract .empty 0 p.statements = .ok (p.table, p.mainStatements) ∧
        ∃ left, failure.scopes = ⟨[left]⟩ ∧ p.StopsWith failure.error left := by
  unfold generate at failed
  cases parted : Generate.extract .empty 0 p.statements with
  | error error =>
    rw [parted] at failed
    cases failed
    exact .inl ⟨rfl, rfl⟩
  | ok result =>
    obtain ⟨table, main⟩ := result
    obtain ⟨_, rfl, rfl⟩ := Generate.extract_ok.mp parted
    right
    refine ⟨rfl, ?_⟩
    rw [parted] at failed
    rcases bind_eq_error.mp failed with failed | ⟨fs, lowered, failed⟩
    · obtain ⟨earlier, d, later, order, accepted, fault⟩ := Generate.functions_failed failed
      exact stopsWith_of_function order accepted fault
    · rcases bind_eq_error.mp failed with failed | ⟨_, _, finished⟩
      · obtain ⟨left, scopes, stops⟩ := Generate.stopsAmong_of_failed (Generate.mainBody_failed failed)
        exact ⟨left, scopes, .main (Generate.functions_accepted lowered) stops⟩
      · cases finished

end Program

namespace Emitter

theorem lookup_of_fresh {added frame : List (String × ValueType)} {name : String} {type : ValueType}
    (fresh : ∀ x ∈ added, x.1 ∉ frame.map Prod.fst) (bound : frame.lookup name = some type) :
    (added ++ frame).lookup name = some type := by
  have absent : added.lookup name = none := by
    obtain ⟨before, after, split, _⟩ := List.lookup_eq_some_iff.mp bound
    rw [List.lookup_eq_none_iff]
    intro x member
    rw [bne_iff_ne]
    intro same
    apply fresh x member
    rw [← same, split]
    simp
  rw [List.lookup_append, absent, bound]
  rfl

/-- A statement that is written changes nothing but the text, which grows, and the
innermost scope, which gains the variable that the statement declares; a fault keeps even
that scope. Whatever an emitter holds, a program gives what the generator gives. It leaves
no scope if it is accepted, or if its functions cannot be taken out, and for any other
fault the outermost scope of the body at fault, with all that was declared in it before. -/
theorem scope_discipline (e : Emitter) :
    (∀ frame outer s, e.symbols = ⟨frame :: outer⟩ →
      ∃ added text, (emit s e).2 = { e with output := e.output ++ text, symbols := ⟨(added ++ frame) :: outer⟩ } ∧
        (∀ name type, frame.lookup name = some type → (added ++ frame).lookup name = some type) ∧
        match Generate.statement ⟨e.functions, e.inFunction⟩ e.symbols s with
        | .ok (code, scopes) => (emit s e).1 = .ok () ∧ text = code.render e.indent ∧
            scopes = ⟨(added ++ frame) :: outer⟩ ∧ added = (s.binding? e.symbols).toList
        | .error error => (emit s e).1 = .error error ∧ added = []) ∧
    ∀ p, (∀ g : Generator, (generate p e).1 = (g.run p).1 ∧ (generate p e).2.symbols = (g.run p).2.scopes) ∧
      match (generate p e).1 with
      | .ok _ => (generate p e).2.symbols = .empty
      | .error error =>
        (Generate.extract .empty 0 p.statements = .error error ∧ (generate p e).2.symbols = .empty) ∨
          Generate.extract .empty 0 p.statements = .ok (p.table, p.mainStatements) ∧
            ∃ left, (generate p e).2.symbols = ⟨[left]⟩ ∧ p.StopsWith error left := by
  constructor
  · intro frame outer s opened
    have follows := emit_follows s e
    rw [context] at follows
    cases lowered : Generate.statement ⟨e.functions, e.inFunction⟩ e.symbols s with
    | error error =>
      rw [lowered] at follows
      cases follows with
      | failed text run =>
        rw [run]
        refine ⟨[], text, ?_, fun name type bound => bound, rfl, rfl⟩
        rw [List.nil_append, ← opened]
        rfl
    | ok result =>
      obtain ⟨code, scopes⟩ := result
      rw [lowered] at follows
      rw [opened] at lowered
      obtain ⟨fresh, rfl⟩ := Generate.statement_scopes lowered
      cases follows with
      | done run =>
        rw [run, opened]
        refine ⟨_, _, rfl, fun name type bound => ?_, rfl, rfl, rfl, rfl⟩
        exact lookup_of_fresh (fun x member => fresh x (Option.mem_toList.mp member)) bound
  · intro p
    refine ⟨generate_run p e, ?_⟩
    rw [(generate_run p e Generator.new).1, (generate_run p e Generator.new).2, Generator.run]
    cases result : p.generate with
    | ok code => rfl
    | error failure => exact Program.generate_failed result

/-- A scope with one variable is open, left from another program. A block adds nothing to
it. A function that returns a string fails, and the variables of its blocks are gone by
then. -/
theorem scope_discipline_sample :
    ∃ e : Emitter, e.symbols = ⟨[[("b", .int)]]⟩ ∧
      (∃ text, (emit (.block (.mk [.declare "z" none ⟨1, 2⟩] ⟨1, 1⟩)) e).2 = { e with output := e.output ++ text }) ∧
      ∃ source p error,
        source = r#"func f(a) { y = "t"; { z = 1; } if a { y = "u"; x = 2; } return y; }"# ∧
        Program.parse source = .ok p ∧ (generate p e).1 = .error error ∧
        (generate p e).2.symbols = ⟨[[("y", .str), ("a", .int)]]⟩ ∧
        p.StopsWith error [("y", .str), ("a", .int)] := by
  let e : Emitter := ⟨"", 1, ⟨[[("b", .int)]]⟩, .empty, 0, true⟩
  refine ⟨e, rfl, ?_, ?_⟩
  · obtain ⟨added, text, state, _, told⟩ :=
      (scope_discipline e).1 [("b", .int)] [] (.block (.mk [.declare "z" none ⟨1, 2⟩] ⟨1, 1⟩)) rfl
    have nothing : added = [] := by
      cases lowered : Generate.statement ⟨e.functions, e.inFunction⟩ e.symbols
          (.block (.mk [.declare "z" none ⟨1, 2⟩] ⟨1, 1⟩)) with
      | error error =>
        rw [lowered] at told
        exact told.2
      | ok result =>
        rw [lowered] at told
        exact told.2.2.2
    rw [nothing] at state
    exact ⟨text, state⟩
  · generalize given :
      r#"func f(a) { y = "t"; { z = 1; } if a { y = "u"; x = 2; } return y; }"# = source
    have evaluated : (match Program.parse source with
        | .ok p => ((generate p e).1 matches .error _) &&
            (generate p e).2.symbols == ⟨[[("y", .str), ("a", .int)]]⟩
        | .error _ => false) = true := by
      rw [← given]
      decide +kernel
    cases parsed : Program.parse source with
    | error diagnostics => simp [parsed] at evaluated
    | ok p =>
      have told := ((scope_discipline e).2 p).2
      simp only [parsed, Bool.and_eq_true, beq_iff_eq] at evaluated
      obtain ⟨failed, left⟩ := evaluated
      cases result : (generate p e).1 with
      | ok text => simp [result] at failed
      | error error =>
        rw [result, left] at told
        rcases told with ⟨_, none⟩ | ⟨_, frame, one, stops⟩
        · cases none
        · cases one
          exact ⟨source, p, error, rfl, parsed, result, left, stops⟩

end Emitter

end ImpToC
