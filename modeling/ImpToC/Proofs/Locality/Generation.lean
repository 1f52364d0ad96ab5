import ImpToC.Compile
import ImpToC.Proofs.Lowering
import ImpToC.Proofs.Locality.Relocation

/-!
Code does not depend on places. A moved program has the same code, or the same fault at
the place that was moved along. One lemma for each function of the generator says so.
-/
namespace ImpToC

/-- A fault is told at the moved place; its message names none. -/
def GenError.relocate (f : Location → Location) (e : GenError) : GenError := ⟨e.cause, f e.location⟩

/-- A function with the places of its body and its own moved. -/
def FunctionDef.relocate (f : Location → Location) (d : FunctionDef) : FunctionDef :=
  ⟨d.name, d.params, d.body.relocate f, f d.location⟩

/-- The order of the table stays, so every function keeps its number. -/
def FunctionTable.relocate (f : Location → Location) (table : FunctionTable) : FunctionTable :=
  ⟨table.definitions.map (FunctionDef.relocate f)⟩

/-- The scopes at a failure hold no places. -/
def Generate.Failure.relocate (f : Location → Location) (failure : Generate.Failure) : Generate.Failure :=
  ⟨failure.error.relocate f, failure.scopes⟩

variable {α β ε ε' : Type}

/-- Moving the error of a sequence of steps moves the error of each step. The lemmas below push
the move inwards with this until a step has its own. -/
theorem mapError_bind (g : ε → ε') (step : Except ε α) (next : α → Except ε β) :
    (step >>= next).mapError g = step.mapError g >>= fun value => (next value).mapError g := by
  cases step <;> rfl

@[simp] theorem mapError_pure (g : ε → ε') (value : α) :
    (pure value : Except ε α).mapError g = pure value := rfl

@[simp] theorem mapError_ok (g : ε → ε') (value : α) : (Except.ok value : Except ε α).mapError g = .ok value := rfl

variable (f : Location → Location)

namespace FunctionTable

/-- Names are looked up by name alone. -/
theorem position?_relocate (table : FunctionTable) (name : String) :
    (table.relocate f).position? name = table.position? name := by
  unfold position? relocate
  rw [List.findIdx?_map]
  rfl

/-- What is found under a name is what was there, moved. -/
theorem get?_relocate (table : FunctionTable) (name : String) :
    (table.relocate f).get? name = (table.get? name).map (FunctionDef.relocate f) := by
  unfold get?
  rw [position?_relocate]
  cases table.position? name with
  | none => rfl
  | some i => exact List.getElem?_map

end FunctionTable

namespace Expr

theorem location_relocate (e : Expr) : (e.relocate f).location = f e.location := by
  cases e <;> rfl

/-- The type of an expression depends on names and on the scopes. -/
theorem type_relocate (scopes : Scopes) (e : Expr) : (e.relocate f).type scopes = e.type scopes := by
  induction e using Expr.induction with
  | binary op left right l ih ih' => cases op <;> simp only [relocate, type, ih, ih']
  | _ => rfl

/-- Whether a sum of literals is folded, and to what, depends on the literals. -/
theorem literalBody?_relocate (e : Expr) : (e.relocate f).literalBody? = e.literalBody? := by
  induction e using Expr.induction with
  | binary op left right l ih ih' => cases op <;> simp only [relocate, literalBody?, ih, ih']
  | _ => rfl

/-- The place where a name is first used is a place of the expression, so it moves along. -/
theorem mention?_relocate (name : String) (e : Expr) :
    (e.relocate f).mention? name = (e.mention? name).map f := by
  induction e using Expr.induction with
  | ident other l =>
    simp only [relocate, mention?]
    split <;> rfl
  | binary op left right l ih ih' => simp only [relocate, mention?, ih, ih', Option.map_or]
  | call callee args l ih each =>
    have listed : firstMention? name (relocateAll f args) = (firstMention? name args).map f := by
      clear ih
      induction args with
      | nil => rfl
      | cons e es others =>
        obtain ⟨first, later⟩ := List.forall_mem_cons.mp each
        simp only [relocateAll, firstMention?, first, others later, Option.map_or]
    simp only [relocate, mention?, ih, listed, Option.map_or]
  | _ => rfl

/-- A mismatch of types is told at the operator, which has moved. -/
theorem lowerBinary_relocate (scopes : Scopes) (op : Operator) (left right : Expr) (l : Location)
    (leftCode rightCode : C.Expr) :
    lowerBinary scopes op (left.relocate f) (right.relocate f) (f l) leftCode rightCode =
      (lowerBinary scopes op left right l leftCode rightCode).mapError (GenError.relocate f) := by
  unfold lowerBinary
  rw [type_relocate, type_relocate, literalBody?_relocate, literalBody?_relocate]
  split
  · rfl
  · by_cases sum : op = .add
    · rw [if_pos sum, if_pos sum]
      split <;> rfl
    · rw [if_neg sum, if_neg sum]
      split <;> rfl
  · rfl

/-- What cannot be called is told at the parenthesis of the call. -/
theorem callee?_relocate (scopes : Scopes) (callee : Expr) (l : Location) :
    callee? scopes (callee.relocate f) (f l) = (callee? scopes callee l).mapError (GenError.relocate f) := by
  cases callee with
  | ident name place =>
    simp only [relocate, callee?]
    split <;> rfl
  | _ => rfl

/-- The first argument that is no integer is told by its number and at its place. -/
theorem checkArguments_relocate (scopes : Scopes) (function : String) (index : Nat) (args : List Expr) :
    checkArguments scopes function index (relocateAll f args) =
      (checkArguments scopes function index args).mapError (GenError.relocate f) := by
  induction args generalizing index with
  | nil => rfl
  | cons e es ih =>
    simp only [relocateAll, checkArguments, type_relocate, location_relocate]
    split
    · exact ih (index + 1)
    · rfl

variable (functions : FunctionTable) (scopes : Scopes)

theorem checkCall_relocate (name : String) (args : List Expr) (l : Location) :
    checkCall (functions.relocate f) scopes name (relocateAll f args) (f l) =
      (checkCall functions scopes name args l).mapError (GenError.relocate f) := by
  unfold checkCall
  rw [FunctionTable.get?_relocate]
  have count : (relocateAll f args).length = args.length := by rw [relocateAll_eq_map, List.length_map]
  cases functions.get? name with
  | none => rfl
  | some d =>
    simp only [Option.map_some, FunctionDef.relocate, count]
    split
    · exact checkArguments_relocate f scopes name 1 args
    · rfl

/-- A moved expression has the same code, or the same fault at the moved place. -/
theorem lower_relocate (e : Expr) :
    (e.relocate f).lower (functions.relocate f) scopes =
      (e.lower functions scopes).mapError (GenError.relocate f) := by
  induction e using Expr.induction with
  | ident name l =>
    simp only [relocate, lower]
    split <;> rfl
  | int value l =>
    simp only [relocate, lower]
    split <;> rfl
  | str text l => rfl
  | binary op left right l ih ih' => simp only [relocate, lower, mapError_bind, ih, ih', lowerBinary_relocate]
  | call callee args l ih each =>
    have listed : lowerAll (functions.relocate f) scopes (relocateAll f args) =
        (lowerAll functions scopes args).mapError (GenError.relocate f) := by
      clear ih
      induction args with
      | nil => rfl
      | cons e es others =>
        obtain ⟨first, later⟩ := List.forall_mem_cons.mp each
        simp only [relocateAll, lowerAll, mapError_bind, first, others later, mapError_pure]
    simp only [relocate, lower, mapError_bind, callee?_relocate, checkCall_relocate, listed, mapError_pure]
  | func params body l => rfl

end Expr

namespace Generate

/-- What a statement is lowered in: the moved functions, and whether it stands in one. -/
def Context.relocate (context : Context) : Context := ⟨context.functions.relocate f, context.inFunction⟩

theorem declare_relocate (scopes : Scopes) (name : String) (type : ValueType) (l : Location) :
    declare scopes name type (f l) = (declare scopes name type l).mapError (GenError.relocate f) := by
  unfold declare
  split
  · rfl
  · split <;> rfl

section Statements

variable (functions : FunctionTable) (scopes : Scopes)

/-- A variable used in its own initial value is told at the use, which has moved along. -/
theorem declaration_relocate (name : String) (value : Option Expr) (l : Location) :
    declaration (functions.relocate f) scopes name (Expr.relocateOption f value) (f l) =
      (declaration functions scopes name value l).mapError (GenError.relocate f) := by
  unfold declaration
  split
  · rfl
  · cases value with
    | none => simp only [Expr.relocateOption, mapError_bind, declare_relocate, mapError_pure]
    | some e =>
      simp only [Expr.relocateOption, Expr.mention?_relocate, Expr.type_relocate]
      cases e.mention? name with
      | some used => rfl
      | none =>
        simp only [Option.map_none, mapError_bind, Expr.lower_relocate, declare_relocate, mapError_pure]

theorem assignment_relocate (name : String) (value : Expr) (l : Location) :
    assignment (functions.relocate f) scopes name (value.relocate f) (f l) =
      (assignment functions scopes name value l).mapError (GenError.relocate f) := by
  unfold assignment
  rw [Expr.type_relocate]
  split
  · exact declaration_relocate f functions scopes name (some value) l
  · split
    · simp only [mapError_bind, Expr.lower_relocate, mapError_pure]
    · rfl

theorem output_relocate (value : Expr) :
    output (functions.relocate f) scopes (value.relocate f) =
      (output functions scopes value).mapError (GenError.relocate f) := by
  simp only [output, Expr.type_relocate, mapError_bind, Expr.lower_relocate, mapError_pure]

theorem returning_relocate (value : Option Expr) (l : Location) :
    returning (functions.relocate f) scopes (Expr.relocateOption f value) (f l) =
      (returning functions scopes value l).mapError (GenError.relocate f) := by
  unfold returning
  cases value with
  | none => rfl
  | some e =>
    simp only [Expr.relocateOption, Expr.type_relocate]
    split
    · simp only [mapError_bind, Expr.lower_relocate, mapError_pure]
    · rfl

/-- Whether the value is printed depends on the context alone. -/
theorem bare_relocate (context : Context) (value : Expr) :
    bare (context.relocate f) scopes (value.relocate f) =
      (bare context scopes value).mapError (GenError.relocate f) := by
  unfold bare
  split
  · next inside =>
    rw [if_pos (show context.inFunction = true from inside)]
    simp only [mapError_bind, Context.relocate, Expr.lower_relocate, mapError_pure]
  · next outside =>
    rw [if_neg (show ¬ context.inFunction = true from outside)]
    exact output_relocate f context.functions scopes value

end Statements

mutual

/-- Statements, blocks and lists of statements go together. Of a list a failure is compared with its
scopes, which are the same on both sides. -/
theorem statement_relocate (context : Context) (scopes : Scopes) (s : Stmt) :
    statement (context.relocate f) scopes (s.relocate f) =
      (statement context scopes s).mapError (GenError.relocate f) := by
  cases s with
  | declare name value l => exact declaration_relocate f context.functions scopes name value l
  | assign name value l => exact assignment_relocate f context.functions scopes name value l
  | print value l =>
    simp only [Stmt.relocate, statement, mapError_bind, Context.relocate, output_relocate, mapError_pure]
  | branch condition consequence alternative l =>
    simp only [Stmt.relocate, statement, mapError_bind, block_relocate context scopes consequence,
      optionalBlock_relocate context scopes alternative, mapError_pure]
    simp only [Context.relocate, Expr.lower_relocate]
  | block body =>
    simp only [Stmt.relocate, statement, mapError_bind, block_relocate context scopes body, mapError_pure]
  | foreign name l => rfl
  | ret value l =>
    simp only [Stmt.relocate, statement, mapError_bind, Context.relocate, returning_relocate, mapError_pure]
  | func name params body l => rfl
  | expr value l => simp only [Stmt.relocate, statement, mapError_bind, bare_relocate, mapError_pure]

theorem block_relocate (context : Context) (scopes : Scopes) (b : Block) :
    block (context.relocate f) scopes (b.relocate f) = (block context scopes b).mapError (GenError.relocate f) := by
  cases b with
  | mk body l =>
    simp only [Block.relocate, block, statements_relocate context scopes.push body]
    cases statements context scopes.push body <;> rfl

theorem optionalBlock_relocate (context : Context) (scopes : Scopes) (b : Option Block) :
    optionalBlock (context.relocate f) scopes (Block.relocateOption f b) =
      (optionalBlock context scopes b).mapError (GenError.relocate f) := by
  cases b with
  | none => rfl
  | some body =>
    simp only [Block.relocateOption, optionalBlock, mapError_bind, block_relocate context scopes body, mapError_pure]

theorem statements_relocate (context : Context) (scopes : Scopes) (ss : List Stmt) :
    statements (context.relocate f) scopes (Stmt.relocateAll f ss) =
      (statements context scopes ss).mapError (Failure.relocate f) := by
  cases ss with
  | nil => rfl
  | cons s ss =>
    simp only [Stmt.relocateAll, statements, statement_relocate context scopes s]
    cases statement context scopes s with
    | error error => rfl
    | ok result =>
      obtain ⟨code, after⟩ := result
      simp only [mapError_ok, mapError_bind, statements_relocate context after ss, mapError_pure]

end

/-- A function joins the moved table exactly if it joins the old one, and then as its last entry. -/
theorem register_relocate (table : FunctionTable) (d : FunctionDef) :
    register (table.relocate f) (d.relocate f) =
      ((register table d).map (FunctionTable.relocate f)).mapError (GenError.relocate f) := by
  unfold register FunctionTable.insert
  rw [FunctionTable.position?_relocate]
  have same : (d.relocate f).name = d.name := rfl
  rw [same]
  cases table.position? d.name with
  | some i => rfl
  | none =>
    simp only [Except.map, mapError_ok, FunctionTable.relocate, List.map_append, List.map_cons, List.map_nil]

/-- What `extract` gives, moved. -/
def relocateParts (parts : FunctionTable × List Stmt) : FunctionTable × List Stmt :=
  (parts.1.relocate f, Stmt.relocateAll f parts.2)

/-- The functions of a moved program are its functions, moved, and so is what stays in the main
body. The induction is along the statements, with the table and the count of functions without a
name that came from those before. -/
theorem extract_relocate (table : FunctionTable) (anonymous : Nat) (ss : List Stmt) :
    extract (table.relocate f) anonymous (Stmt.relocateAll f ss) =
      ((extract table anonymous ss).map (relocateParts f)).mapError (GenError.relocate f) := by
  fun_induction extract table anonymous ss with
  | case1 table anonymous => rfl
  | case2 table anonymous name params body l ss reserved =>
    simp only [Stmt.relocateAll, Stmt.relocate, extract]
    rw [if_pos reserved]
    rfl
  | case3 table anonymous name params body l ss free ih =>
    have registered : register (table.relocate f) ⟨name, params, body.relocate f, f l⟩ = _ :=
      register_relocate f table ⟨name, params, body, l⟩
    simp only [Stmt.relocateAll, Stmt.relocate, extract, registered]
    rw [if_neg free]
    cases register table ⟨name, params, body, l⟩ with
    | error error => rfl
    | ok after => exact ih after
  | case4 table anonymous params body l l' ss ih =>
    have registered : register (table.relocate f) ⟨anonymousName anonymous, params, body.relocate f, f l⟩ = _ :=
      register_relocate f table ⟨anonymousName anonymous, params, body, l⟩
    simp only [Stmt.relocateAll, Stmt.relocate, Expr.relocate, extract, registered]
    cases register table ⟨anonymousName anonymous, params, body, l⟩ with
    | error error => rfl
    | ok after => exact ih after
  | case5 table anonymous s ss named unnamed ih =>
    -- A statement that is no function is none after it was moved, and stays in the main body.
    have kept : extract (table.relocate f) anonymous (s.relocate f :: Stmt.relocateAll f ss) =
        (extract (table.relocate f) anonymous (Stmt.relocateAll f ss) >>= fun parts =>
          pure (parts.1, s.relocate f :: parts.2)) := by
      cases s with
      | func name params body l => exact absurd rfl (named name params body l)
      | expr value l =>
        cases value with
        | func params body l' => exact absurd rfl (unnamed params body l' l)
        | _ => rfl
      | _ => rfl
    rw [Stmt.relocateAll, kept, ih]
    cases extract table anonymous ss <;> rfl

theorem parameters_relocate (scopes : Scopes) (l : Location) (names : List String) :
    parameters scopes (f l) names = (parameters scopes l names).mapError (Failure.relocate f) := by
  induction names generalizing scopes with
  | nil => rfl
  | cons name names ih =>
    simp only [parameters, declare_relocate]
    cases declare scopes name .int l with
    | error error => rfl
    | ok after => exact ih after

theorem endsInReturn_relocate (ss : List Stmt) : endsInReturn (Stmt.relocateAll f ss) = endsInReturn ss := by
  unfold endsInReturn
  rw [Stmt.relocateAll_eq_map, List.getLast?_map]
  cases ss.getLast? with
  | none => rfl
  | some s => cases s <;> rfl

/-- The body of a function is lowered in the scope of its parameters, whatever their place. -/
theorem function_relocate (table : FunctionTable) (d : FunctionDef) :
    function (table.relocate f) (d.relocate f) = (function table d).mapError (Failure.relocate f) := by
  obtain ⟨name, params, ⟨body, place⟩, l⟩ := d
  have inside := fun scopes => statements_relocate f ⟨table, true⟩ scopes body
  simp only [Context.relocate] at inside
  simp only [function, FunctionDef.relocate, Block.relocate, Block.statements, mapError_bind,
    parameters_relocate, inside, endsInReturn_relocate, mapError_pure]
  rfl

theorem functions_relocate (table : FunctionTable) (ds : List FunctionDef) :
    functions (table.relocate f) (ds.map (FunctionDef.relocate f)) =
      (functions table ds).mapError (Failure.relocate f) := by
  induction ds with
  | nil => rfl
  | cons d ds ih => simp only [List.map_cons, functions, mapError_bind, function_relocate, ih, mapError_pure]

theorem mainBody_relocate (table : FunctionTable) (body : List Stmt) :
    mainBody (table.relocate f) (Stmt.relocateAll f body) =
      (mainBody table body).mapError (Failure.relocate f) := by
  have inside := fun scopes => statements_relocate f ⟨table, false⟩ scopes body
  simp only [Context.relocate] at inside
  simp only [mainBody, mapError_bind, inside, mapError_pure]

end Generate

/-- A moved program has the same code, or fails in the same scopes with the fault moved. -/
theorem Program.generate_relocate (p : Program) :
    (p.relocate f).generate = p.generate.mapError (Generate.Failure.relocate f) := by
  have parts : Generate.extract .empty 0 (Stmt.relocateAll f p.statements) = _ :=
    Generate.extract_relocate f .empty 0 p.statements
  unfold Program.generate
  simp only [Program.relocate, parts]
  cases Generate.extract .empty 0 p.statements with
  | error error => rfl
  | ok result =>
    obtain ⟨table, body⟩ := result
    have defined : (table.relocate f).definitions = table.definitions.map (FunctionDef.relocate f) := rfl
    simp only [Except.map, mapError_ok, Generate.relocateParts, mapError_bind, defined,
      Generate.functions_relocate, Generate.mainBody_relocate, mapError_pure]

/-- A moved program has the same text, or the same fault at the moved place. -/
theorem Generator.run_relocate (g : Generator) (p : Program) :
    (g.run (p.relocate f)).1 = (g.run p).1.mapError (GenError.relocate f) := by
  unfold Generator.run
  rw [Program.generate_relocate]
  cases p.generate <;> rfl

end ImpToC
