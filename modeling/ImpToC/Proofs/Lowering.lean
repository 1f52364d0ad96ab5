import Mathlib.Data.List.Forall2
import ImpToC.Generate

/-!
What a successful lowering says, one equivalence for each form of expression and
of statement. Results about accepted programs start from these and do not open
the generator again. The inductions over trees are stated once as well: an
expression counts with its operands and arguments, a statement with the
statements of its blocks, and a function literal is a leaf of both.
-/
namespace ImpToC

/-- A sequence of steps succeeds exactly if each step does. -/
theorem bind_eq_ok {ε α β : Type} {step : Except ε α} {next : α → Except ε β} {result : β} :
    (step >>= next) = .ok result ↔ ∃ value, step = .ok value ∧ next value = .ok result := by
  cases step with
  | error e => simp [bind, Except.bind]
  | ok value => simp [bind, Except.bind]

/-- Induction over an expression, its operands and its arguments. -/
@[elab_as_elim]
theorem Expr.induction {motive : Expr → Prop}
    (ident : ∀ name l, motive (.ident name l)) (int : ∀ value l, motive (.int value l))
    (str : ∀ text l, motive (.str text l))
    (binary : ∀ op left right l, motive left → motive right → motive (.binary op left right l))
    (call : ∀ callee args l, motive callee → (∀ e ∈ args, motive e) → motive (.call callee args l))
    (func : ∀ params body l, motive (.func params body l)) (e : Expr) : motive e :=
  match e with
  | .ident name l => ident name l
  | .int value l => int value l
  | .str text l => str text l
  | .binary op left right l =>
    binary op left right l (left.induction ident int str binary call func)
      (right.induction ident int str binary call func)
  | .call callee args l =>
    call callee args l (callee.induction ident int str binary call func)
      (fun e _ => e.induction ident int str binary call func)
  | .func params body l => func params body l
termination_by sizeOf e
decreasing_by
  all_goals simp only [Expr.binary.sizeOf_spec, Expr.call.sizeOf_spec]
  all_goals try have := List.sizeOf_lt_of_mem ‹_ ∈ args›
  all_goals omega

/-- Induction over a statement and the statements of its blocks. -/
@[elab_as_elim]
theorem Stmt.induction {motive : Stmt → Prop}
    (declare : ∀ name value l, motive (.declare name value l))
    (assign : ∀ name value l, motive (.assign name value l))
    (print : ∀ value l, motive (.print value l))
    (branch : ∀ condition consequence alternative l,
      (∀ s ∈ consequence.statements, motive s) →
      (∀ body, alternative = some body → ∀ s ∈ body.statements, motive s) →
      motive (.branch condition consequence alternative l))
    (block : ∀ body, (∀ s ∈ body.statements, motive s) → motive (.block body))
    (foreign : ∀ name l, motive (.foreign name l))
    (ret : ∀ value l, motive (.ret value l))
    (func : ∀ name params body l, motive (.func name params body l))
    (expr : ∀ value l, motive (.expr value l)) (s : Stmt) : motive s :=
  match s with
  | .declare name value l => declare name value l
  | .assign name value l => assign name value l
  | .print value l => print value l
  | .branch condition (.mk yes m) none l =>
    branch condition (.mk yes m) none l
      (fun s _ => s.induction declare assign print branch block foreign ret func expr)
      (fun _ absent => nomatch absent)
  | .branch condition (.mk yes m) (some (.mk no n)) l =>
    branch condition (.mk yes m) (some (.mk no n)) l
      (fun s _ => s.induction declare assign print branch block foreign ret func expr)
      (fun | _, rfl, s, _ => s.induction declare assign print branch block foreign ret func expr)
  | .block (.mk body m) =>
    block (.mk body m)
      (fun s _ => s.induction declare assign print branch block foreign ret func expr)
  | .foreign name l => foreign name l
  | .ret value l => ret value l
  | .func name params body l => func name params body l
  | .expr value l => expr value l
termination_by sizeOf s
decreasing_by
  all_goals simp only [Stmt.branch.sizeOf_spec, Stmt.block.sizeOf_spec, Block.mk.sizeOf_spec,
    Option.some.sizeOf_spec, Option.none.sizeOf_spec]
  · have := List.sizeOf_lt_of_mem ‹s ∈ yes›; omega
  · have := List.sizeOf_lt_of_mem ‹s ∈ yes›; omega
  · have := List.sizeOf_lt_of_mem ‹s ∈ no›; omega
  · have := List.sizeOf_lt_of_mem ‹s ∈ body›; omega

namespace Expr

variable {functions : FunctionTable} {scopes : Scopes}

/-- A name has code exactly where it is a variable in scope. -/
theorem lower_ident_ok {name : String} {l : Location} {code : C.Expr} :
    (ident name l).lower functions scopes = .ok code ↔
      (∃ type, scopes.lookup? name = some type) ∧ code = .var name := by
  rw [lower]
  cases scopes.lookup? name with
  | none => simp
  | some type => simp [eq_comm]

/-- Integers have to fit the type that C gives them. -/
theorem lower_int_ok {value : Int} {l : Location} {code : C.Expr} :
    (int value l).lower functions scopes = .ok code ↔
      fitsInt value = true ∧ code = .int value := by
  rw [lower]
  split
  · next fits => simp [fits, eq_comm]
  · next large => simp [large]

theorem lower_str_ok {text : String} {l : Location} {code : C.Expr} :
    (str text l).lower functions scopes = .ok code ↔ code = .str (C.Literal.body text) := by
  rw [lower]
  simp [eq_comm]

/-- A function literal has code nowhere but at the top level. -/
theorem lower_func_ne_ok {params : List String} {body : Block} {l : Location} {code : C.Expr} :
    (func params body l).lower functions scopes ≠ .ok code := by
  simp [lower]

theorem lower_binary_ok {op : Operator} {left right : Expr} {l : Location} {code : C.Expr} :
    (binary op left right l).lower functions scopes = .ok code ↔
      ∃ a b, left.lower functions scopes = .ok a ∧ right.lower functions scopes = .ok b ∧
        lowerBinary scopes op left right l a b = .ok code := by
  rw [lower]
  simp only [bind_eq_ok]
  constructor
  · rintro ⟨a, leftOk, b, rightOk, rest⟩
    exact ⟨a, b, leftOk, rightOk, rest⟩
  · rintro ⟨a, b, leftOk, rightOk, rest⟩
    exact ⟨a, leftOk, b, rightOk, rest⟩

/-- What two strings become when they are added. -/
def joined (left right : Expr) (a b : C.Expr) : C.Expr :=
  match left.literalBody?, right.literalBody? with
  | some x, some y => .str (x ++ y)
  | _, _ => .concat a b

/-- They become one literal exactly if their sum counts as one. -/
theorem joined_eq (left right : Expr) (a b : C.Expr) (l : Location) :
    joined left right a b =
      match (binary .add left right l).literalBody? with
      | some body => .str body
      | none => .concat a b := by
  simp only [joined, literalBody?]
  cases left.literalBody? <;> cases right.literalBody? <;> rfl

/-- Integers take every operator, strings only a sum or a comparison, and nothing is converted. -/
theorem lowerBinary_ok {op : Operator} {left right : Expr} {l : Location} {a b code : C.Expr} :
    lowerBinary scopes op left right l a b = .ok code ↔
      (left.type scopes = .int ∧ right.type scopes = .int ∧ code = .binary op a b) ∨
      (left.type scopes = .str ∧ right.type scopes = .str ∧
        ((op = .add ∧ code = joined left right a b) ∨
          (op.isComparison = true ∧ code = .compare op a b))) := by
  unfold lowerBinary
  cases left.type scopes <;> cases right.type scopes
  · simp only [Except.ok.injEq, reduceCtorEq, true_and, false_and, or_false]
    exact eq_comm
  · simp
  · simp
  · simp only [reduceCtorEq, true_and, false_and, false_or]
    by_cases sum : op = .add
    · subst sum
      simp only [joined, Operator.isComparison, if_true, true_and, Bool.false_eq_true, false_and,
        or_false]
      cases left.literalBody? <;> cases right.literalBody? <;>
        simp only [Except.ok.injEq] <;> exact eq_comm
    · simp only [sum, if_false, false_and, false_or]
      cases op.isComparison with
      | false => simp
      | true =>
        simp only [if_true, Except.ok.injEq, true_and]
        exact eq_comm

theorem checkArguments_ok {function : String} {index : Nat} {args : List Expr} :
    checkArguments scopes function index args = .ok () ↔ ∀ e ∈ args, e.type scopes = .int := by
  induction args generalizing index with
  | nil => simp [checkArguments]
  | cons e es ih =>
    rw [checkArguments]
    cases given : e.type scopes with
    | int => simp [ih, given]
    | str => simp [given]

/-- Only calls of functions of the program are checked, for the number of arguments and for
integers. Everything else is passed on. -/
theorem checkCall_ok {name : String} {args : List Expr} {l : Location} :
    checkCall functions scopes name args l = .ok () ↔
      ∀ d, functions.get? name = some d →
        d.params.length = args.length ∧ ∀ e ∈ args, e.type scopes = .int := by
  unfold checkCall
  cases functions.get? name with
  | none => simp
  | some d =>
    by_cases same : d.params.length = args.length
    · simp [same, checkArguments_ok]
    · simp [same]

/-- What is called is a name that is no variable. -/
theorem callee?_ok {callee : Expr} {l : Location} {name : String} :
    callee? scopes callee l = .ok name ↔
      ∃ m, callee = .ident name m ∧ scopes.lookup? name = none := by
  unfold callee?
  cases callee with
  | ident other m =>
    simp only [ident.injEq]
    cases found : scopes.lookup? other with
    | none =>
      constructor
      · intro same
        cases same
        exact ⟨m, ⟨rfl, rfl⟩, found⟩
      · rintro ⟨_, ⟨rfl, rfl⟩, _⟩
        rfl
    | some type =>
      constructor
      · intro same
        cases same
      · rintro ⟨_, ⟨rfl, rfl⟩, absent⟩
        rw [found] at absent
        cases absent
  | _ => simp

theorem lowerAll_ok {args : List Expr} {codes : List C.Expr} :
    lowerAll functions scopes args = .ok codes ↔
      List.Forall₂ (fun e code => e.lower functions scopes = .ok code) args codes := by
  induction args generalizing codes with
  | nil => cases codes <;> simp [lowerAll]
  | cons e es ih =>
    rw [lowerAll]
    simp only [bind_eq_ok]
    constructor
    · rintro ⟨code, first, rest, later, same⟩
      cases same
      exact .cons first (ih.mp later)
    · intro all
      cases all with
      | cons first later => exact ⟨_, first, _, ih.mpr later, rfl⟩

/-- A call as a whole. A name that is no function of the program is called all the same. -/
theorem lower_call_ok {callee : Expr} {args : List Expr} {l : Location} {code : C.Expr} :
    (call callee args l).lower functions scopes = .ok code ↔
      ∃ name m codes, callee = .ident name m ∧ scopes.lookup? name = none ∧
        (∀ d, functions.get? name = some d →
          d.params.length = args.length ∧ ∀ e ∈ args, e.type scopes = .int) ∧
        List.Forall₂ (fun e code => e.lower functions scopes = .ok code) args codes ∧
        code = .call name codes := by
  rw [lower]
  simp only [bind_eq_ok, callee?_ok, lowerAll_ok]
  constructor
  · rintro ⟨name, ⟨m, named, unbound⟩, ⟨⟩, checked, codes, lowered, same⟩
    cases same
    exact ⟨name, m, codes, named, unbound, checkCall_ok.mp checked, lowered, rfl⟩
  · rintro ⟨name, m, codes, named, unbound, checked, lowered, rfl⟩
    exact ⟨name, ⟨m, named, unbound⟩, (), checkCall_ok.mpr checked, codes, lowered, rfl⟩

end Expr

namespace Generate

variable {context : Context} {scopes after : Scopes}

/-- A name is declared unless it is reserved or the innermost scope has it. -/
theorem declare_ok {name : String} {type : ValueType} {l : Location} :
    declare scopes name type l = .ok after ↔
      C.isReserved name = false ∧ scopes.declare? name type = some after := by
  unfold declare
  cases C.isReserved name with
  | true => simp
  | false => cases scopes.declare? name type <;> simp

theorem declaration_none_ok {functions : FunctionTable} {name : String} {l : Location}
    {code : C.Stmt} :
    declaration functions scopes name none l = .ok (code, after) ↔
      C.isReserved name = false ∧ scopes.declare? name .int = some after ∧
        code = .declare .int name none := by
  unfold declaration
  by_cases reserved : C.isReserved name = true
  · simp [reserved]
  · simp only [reserved, if_false, bind_eq_ok, declare_ok, Bool.false_eq_true]
    constructor
    · rintro ⟨value, ⟨free, declared⟩, same⟩
      cases same
      exact ⟨free, declared, rfl⟩
    · rintro ⟨free, declared, rfl⟩
      exact ⟨after, ⟨free, declared⟩, rfl⟩

/-- The variable has the type of its initial value, in which it must not be used. -/
theorem declaration_some_ok {functions : FunctionTable} {name : String} {value : Expr}
    {l : Location} {code : C.Stmt} :
    declaration functions scopes name (some value) l = .ok (code, after) ↔
      C.isReserved name = false ∧ value.mention? name = none ∧
        ∃ inner, value.lower functions scopes = .ok inner ∧
          scopes.declare? name (value.type scopes) = some after ∧
          code = .declare (value.type scopes) name (some inner) := by
  simp only [declaration]
  cases reserved : C.isReserved name with
  | true => simp
  | false =>
    cases value.mention? name with
    | some used => simp
    | none =>
      simp only [if_false, bind_eq_ok, declare_ok, Bool.false_eq_true, true_and, reserved]
      constructor
      · rintro ⟨inner, lowered, later, declared, same⟩
        cases same
        exact ⟨inner, lowered, declared, rfl⟩
      · rintro ⟨inner, lowered, declared, rfl⟩
        exact ⟨inner, lowered, after, declared, rfl⟩

/-- Assigning to an unknown name declares it; a known one keeps its type and the scopes stay. -/
theorem assignment_ok {functions : FunctionTable} {name : String} {value : Expr} {l : Location}
    {code : C.Stmt} :
    assignment functions scopes name value l = .ok (code, after) ↔
      (scopes.lookup? name = none ∧
        declaration functions scopes name (some value) l = .ok (code, after)) ∨
      (scopes.lookup? name = some (value.type scopes) ∧ after = scopes ∧
        ∃ inner, value.lower functions scopes = .ok inner ∧ code = .assign name inner) := by
  unfold assignment
  cases scopes.lookup? name with
  | none => simp
  | some expected =>
    by_cases same : value.type scopes = expected
    · subst same
      simp only [if_true, bind_eq_ok, reduceCtorEq, false_and, false_or, true_and]
      constructor
      · rintro ⟨inner, lowered, pair⟩
        cases pair
        exact ⟨rfl, inner, lowered, rfl⟩
      · rintro ⟨rfl, inner, lowered, rfl⟩
        exact ⟨inner, lowered, rfl⟩
    · simp [same, Ne.symm same]

theorem output_ok {functions : FunctionTable} {value : Expr} {code : C.Stmt} :
    output functions scopes value = .ok code ↔
      ∃ inner, value.lower functions scopes = .ok inner ∧
        code = .print (value.type scopes) inner := by
  unfold output
  simp only [bind_eq_ok]
  constructor
  · rintro ⟨inner, lowered, same⟩
    cases same
    exact ⟨inner, lowered, rfl⟩
  · rintro ⟨inner, lowered, rfl⟩
    exact ⟨inner, lowered, rfl⟩

/-- Functions return integers. -/
theorem returning_some_ok {functions : FunctionTable} {value : Expr} {l : Location}
    {code : C.Stmt} :
    returning functions scopes (some value) l = .ok code ↔
      value.type scopes = .int ∧
        ∃ inner, value.lower functions scopes = .ok inner ∧ code = .ret inner := by
  simp only [returning]
  cases value.type scopes with
  | str => simp
  | int =>
    simp only [bind_eq_ok, true_and]
    constructor
    · rintro ⟨inner, lowered, same⟩
      cases same
      exact ⟨inner, lowered, rfl⟩
    · rintro ⟨inner, lowered, rfl⟩
      exact ⟨inner, lowered, rfl⟩

/-- An expression on its own is evaluated inside a function and printed outside. -/
theorem bare_ok {value : Expr} {code : C.Stmt} :
    bare context scopes value = .ok code ↔
      ∃ inner, value.lower context.functions scopes = .ok inner ∧
        code = if context.inFunction then .eval inner else .print (value.type scopes) inner := by
  unfold bare
  cases context.inFunction with
  | false => simpa using output_ok
  | true =>
    simp only [if_true, bind_eq_ok]
    constructor
    · rintro ⟨inner, lowered, same⟩
      cases same
      exact ⟨inner, lowered, rfl⟩
    · rintro ⟨inner, lowered, rfl⟩
      exact ⟨inner, lowered, rfl⟩

/-- Statements that leave the scopes as they are: their code alone decides. -/
theorem keeping_ok {step : Except GenError C.Stmt} {code : C.Stmt} :
    (do return (← step, scopes)) = Except.ok (code, after) ↔ step = .ok code ∧ after = scopes := by
  simp only [bind_eq_ok]
  constructor
  · rintro ⟨inner, done, same⟩
    cases same
    exact ⟨done, rfl⟩
  · rintro ⟨done, rfl⟩
    exact ⟨code, done, rfl⟩

/-- A block has a scope of its own, which is forgotten behind it. -/
theorem block_ok {body : Block} {code : List C.Stmt} :
    block context scopes body = .ok code ↔
      ∃ final, statements context scopes.push body.statements = .ok (code, final) := by
  cases body with
  | mk body l =>
    rw [block, Block.statements]
    cases statements context scopes.push body with
    | error failure => simp
    | ok result => simp [Prod.ext_iff]

theorem optionalBlock_ok {body : Option Block} {code : Option (List C.Stmt)} :
    optionalBlock context scopes body = .ok code ↔
      (body = none ∧ code = none) ∨
      ∃ inner lowered, body = some inner ∧ block context scopes inner = .ok lowered ∧
        code = some lowered := by
  cases body with
  | none => simp [optionalBlock, eq_comm]
  | some inner =>
    rw [optionalBlock]
    simp only [bind_eq_ok]
    constructor
    · rintro ⟨lowered, done, same⟩
      cases same
      exact .inr ⟨inner, lowered, rfl, done, rfl⟩
    · rintro (⟨⟨⟩, _⟩ | ⟨_, lowered, ⟨⟩, done, rfl⟩)
      exact ⟨lowered, done, rfl⟩

theorem branch_ok {condition : Expr} {consequence : Block} {alternative : Option Block}
    {l : Location} {code : C.Stmt} :
    statement context scopes (.branch condition consequence alternative l) = .ok (code, after) ↔
      after = scopes ∧ ∃ test yes no, condition.lower context.functions scopes = .ok test ∧
        block context scopes consequence = .ok yes ∧
        optionalBlock context scopes alternative = .ok no ∧ code = .branch test yes no := by
  rw [statement]
  simp only [bind_eq_ok]
  constructor
  · rintro ⟨test, tested, yes, taken, no, untaken, same⟩
    cases same
    exact ⟨rfl, test, yes, no, tested, taken, untaken, rfl⟩
  · rintro ⟨rfl, test, yes, no, tested, taken, untaken, rfl⟩
    exact ⟨test, tested, yes, taken, no, untaken, rfl⟩

theorem statement_block_ok {body : Block} {code : C.Stmt} :
    statement context scopes (.block body) = .ok (code, after) ↔
      after = scopes ∧ ∃ inner, block context scopes body = .ok inner ∧ code = .block inner := by
  rw [statement]
  simp only [bind_eq_ok]
  constructor
  · rintro ⟨inner, done, same⟩
    cases same
    exact ⟨rfl, inner, done, rfl⟩
  · rintro ⟨rfl, inner, done, rfl⟩
    exact ⟨inner, done, rfl⟩

theorem statements_cons_ok {s : Stmt} {ss : List Stmt} {codes : List C.Stmt} {final : Scopes} :
    statements context scopes (s :: ss) = .ok (codes, final) ↔
      ∃ code middle rest, statement context scopes s = .ok (code, middle) ∧
        statements context middle ss = .ok (rest, final) ∧ codes = code :: rest := by
  rw [statements]
  cases statement context scopes s with
  | error error => simp
  | ok result =>
    obtain ⟨code, middle⟩ := result
    simp only [bind_eq_ok]
    constructor
    · rintro ⟨⟨rest, last⟩, done, same⟩
      cases same
      exact ⟨code, middle, rest, rfl, done, rfl⟩
    · rintro ⟨_, _, rest, ⟨⟩, done, rfl⟩
      exact ⟨(rest, final), done, rfl⟩

end Generate

end ImpToC
