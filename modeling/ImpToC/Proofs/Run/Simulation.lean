import Mathlib.Data.List.TakeWhile
import ImpToC.Proofs.Run.Agreement

/-!
The tree of lowered code does what the source does, for one body at a time. Expressions are
related through the variables they name, since in C the name of a new variable is
already in scope within its own initial value. Statements carry the variables of
both sides along, which stay the same up to how C keeps them, and none of which hides
a function that emitted code relies on.
-/
namespace ImpToC

open Run

/-- What a leaf must be so that a run can be compared: a string that C can hold, a callee that
is not the name of a function without a name. Helpers are called only in a run that strays. -/
def Leaf.Runnable (strays : Prop) : Leaf → Prop
  | .str text => '"' ∉ text.toList ∧ '\x00' ∉ text.toList
  | .callee function =>
    (∀ index, function ≠ Generate.anonymousName index) ∧ (function ∈ helpers → strays)
  | .name _ | .int _ => True

/-- Calls that the generator lets through do the same on both sides. -/
def Run.CallersAgree (strays : Prop) (functions : FunctionTable) (source code : Caller) : Prop :=
  ∀ name args, (∀ index, name ≠ Generate.anonymousName index) → (name ∈ helpers → strays) →
    (∀ d, functions.get? name = some d →
      d.params.length = args.length ∧ ((∀ v ∈ args, v.type = .int) ∨ strays)) →
    Agrees strays (SameCall strays) (source name args) (code name args)

theorem Run.Frames.lookup?_declare_ne {α : Type} (fs : Frames α) {name other : String} (a : α)
    (different : other ≠ name) : (fs.declare name a).lookup? other = fs.lookup? other := by
  have skipped : List.lookup other ((name, a) :: fs.headD []) = (fs.headD []).lookup other := by
    rw [List.lookup_cons, beq_eq_false_iff_ne.mpr different]
  cases fs with
  | nil =>
    change [(name, a) :: _].findSome? _ = none
    rw [List.findSome?_cons, skipped]
    rfl
  | cons frame outer =>
    change (((name, a) :: frame) :: outer).findSome? _ = (frame :: outer).findSome? _
    rw [List.findSome?_cons, List.findSome?_cons]
    rw [List.headD_cons] at skipped
    rw [skipped]

theorem C.cut_eq_self {contents : List Char} (noNul : '\x00' ∉ contents) :
    C.cut contents = contents := by
  rw [C.cut]
  refine List.takeWhile_eq_self_iff.mpr fun c member => ?_
  exact bne_iff_ne.mpr fun same => noNul (same ▸ member)

theorem C.strcmp_eq_zero (a b : List Char) : C.strcmp a b = 0 ↔ a = b := by
  unfold C.strcmp
  split
  · next same => simp [same]
  · next different =>
    split <;> simp [different]

/-- Comparing contents by their order asks whether they are the same. -/
theorem C.integers_strcmp (platform : Platform) {op : Operator} (compares : op.isComparison = true)
    (a b : List Char) :
    integers platform op (C.strcmp a b) 0 = Expr.operate platform op (.str a) (.str b) := by
  cases op with
  | eq => simp only [integers, Expr.operate, C.strcmp_eq_zero]
  | ne => simp only [integers, Expr.operate, ne_eq, C.strcmp_eq_zero]
  | _ => cases compares

namespace Expr

variable {strays : Prop} {platform : Platform} {functions : FunctionTable} {source target : Caller}
  {env : Frames Value} {cenv : C.Env}

/-- What an expression gives on both sides: the same value, of the type that the generator
guesses unless a call strays. -/
def Yields (strays : Prop) (scopes : Scopes) (e : Expr) (v w : Value) : Prop :=
  v = w ∧ (v.type = e.type scopes ∨ strays ∧ e.isCall = true)

theorem settle_of_not_isCall {e : Expr} (plain : e.isCall = false) (v : Value) : e.settle v = pure v := by
  rw [settle, if_neg (by simp [plain])]

theorem type_of_isCall {e : Expr} (call : e.isCall = true) (scopes : Scopes) : e.type scopes = .int := by
  cases e with
  | call callee args l => rfl
  | _ => cases call

/-- A value can be put to use where it has the type that is guessed, and nowhere else. -/
theorem Yields.settled {scopes : Scopes} {e : Expr} {v w : Value} (yields : e.Yields strays scopes v w) :
    (SameOf (e.type scopes) v w ∧ e.settle v = pure v) ∨
      strays ∧ v = w ∧ v.type ≠ e.type scopes ∧ e.settle v = stop .stuck := by
  obtain ⟨rfl, typed⟩ := yields
  cases called : e.isCall with
  | false =>
    have fits : v.type = e.type scopes := typed.resolve_right (by simp [called])
    exact .inl ⟨⟨rfl, fits⟩, settle_of_not_isCall called v⟩
  | true =>
    have integer := type_of_isCall called scopes
    cases v with
    | int n => exact .inl ⟨⟨rfl, integer.symm⟩, if_neg (by simp [Value.type])⟩
    | str contents =>
      have fails : Value.type (.str contents) ≠ e.type scopes := by simp [integer, Value.type]
      exact .inr ⟨(typed.resolve_left fails).1, rfl, fails, if_pos ⟨called, rfl⟩⟩

/-- An operand of a type that calls do not have. -/
theorem Yields.str {scopes : Scopes} {e : Expr} {v w : Value} (yields : e.Yields strays scopes v w)
    (string : e.type scopes = .str) : SameOf .str v w ∧ e.settle v = pure v := by
  have plain : e.isCall = false := by
    cases called : e.isCall with
    | false => rfl
    | true =>
      rw [type_of_isCall called] at string
      cases string
  obtain ⟨rfl, typed⟩ := yields
  rw [← string]
  exact ⟨⟨rfl, typed.resolve_right (by simp [plain])⟩, settle_of_not_isCall plain v⟩

/-- Where a value is put to use, C has to be stuck with a value of another type. -/
theorem result_agrees {γ δ : Type} {S : γ → δ → Prop} {e : Expr} {y : Action Value} {f : Value → Action γ}
    {g : Value → Action δ} (agrees : Agrees strays (e.Yields strays (scopesOf env)) (e.eval platform source env) y)
    (same : ∀ v, v.type = e.type (scopesOf env) → Agrees strays S (f v) (g v))
    (other : ∀ v, v.type ≠ e.type (scopesOf env) → g v = stop .stuck) :
    Agrees strays S (e.result platform source env >>= f) (y >>= g) := by
  rw [result, bind_assoc]
  refine agrees.bind fun v w yields => ?_
  rcases yields.settled with ⟨⟨rfl, typed⟩, settled⟩ | ⟨allowed, rfl, fails, settled⟩
  · rw [settled, pure_bind]
    exact same v typed
  · rw [settled, stop_bind, other v fails]
    exact .stop fun _ => allowed

theorem isCall_of_literalBody? {e : Expr} {body : String} (folded : e.literalBody? = some body) :
    e.isCall = false := by
  cases e with
  | call callee args l => cases folded
  | _ => rfl

/-- A sum of literals stands for fixed contents, which the body of the one
literal decodes to, whatever is joined behind it. -/
theorem literalBody?_value {e : Expr} {body : String} (folded : e.literalBody? = some body)
    (runnable : ∀ leaf ∈ e.leaves, leaf.Runnable strays) :
    ∃ contents, e.eval platform source env = pure (.str contents) ∧ '\x00' ∉ contents ∧
      ∀ rest, C.Literal.decode? (body.toList ++ rest) =
        (C.Literal.decode? rest).map (contents ++ ·) := by
  induction e using Expr.induction generalizing body with
  | str text l =>
    obtain ⟨noQuote, noNul⟩ := runnable (.str text) (by simp [leaves])
    simp only [literalBody?, Option.some.injEq] at folded
    subst folded
    refine ⟨C.Literal.value text.toList, by rw [eval], C.Literal.nul_notMem_value noNul, fun rest => ?_⟩
    rw [C.Literal.body, String.toList_ofList]
    exact C.Literal.decode?_encode_append _ _ fun c member same => noQuote (same ▸ member)
  | binary op left right l first second =>
    cases op with
    | add =>
      simp only [literalBody?] at folded
      cases leftBody : left.literalBody? with
      | none => simp [leftBody] at folded
      | some x =>
        cases rightBody : right.literalBody? with
        | none => simp [leftBody, rightBody] at folded
        | some y =>
          simp only [leftBody, rightBody, Option.some.injEq] at folded
          subst folded
          obtain ⟨a, leftRuns, leftPlain, leftDecodes⟩ :=
            first leftBody fun leaf member => runnable leaf (by simp [leaves, member])
          obtain ⟨b, rightRuns, rightPlain, rightDecodes⟩ :=
            second rightBody fun leaf member => runnable leaf (by simp [leaves, member])
          refine ⟨a ++ b, ?_, by simp [leftPlain, rightPlain], fun rest => ?_⟩
          · rw [eval, leftRuns, rightRuns, pure_bind, pure_bind,
              settle_of_not_isCall (isCall_of_literalBody? leftBody),
              settle_of_not_isCall (isCall_of_literalBody? rightBody)]
            rfl
          · rw [String.toList_append, List.append_assoc, leftDecodes, rightDecodes]
            simp [Function.comp_def]
    | _ => simp [literalBody?] at folded
  | _ => simp [literalBody?] at folded

theorem evalAll_agrees {args : List Expr} {codes : List C.Expr}
    (each : ∀ e ∈ args, ∀ code, e.lower functions (scopesOf env) = .ok code →
      Agrees strays (e.Yields strays (scopesOf env)) (e.eval platform source env)
        (code.eval platform target cenv))
    (lowered : List.Forall₂ (fun e code => e.lower functions (scopesOf env) = .ok code) args codes) :
    Agrees strays
      (fun vs ws => vs = ws ∧ List.Forall₂ (fun e v => v.type = e.type (scopesOf env) ∨ strays) args vs)
      (evalAll platform source env args) (C.Expr.evalAll platform target cenv codes) := by
  induction lowered with
  | nil =>
    rw [evalAll, C.Expr.evalAll]
    exact .pure ⟨rfl, .nil⟩
  | @cons e code es codes first rest ih =>
    rw [evalAll, C.Expr.evalAll]
    refine (each e (by simp) code first).bind fun v w same => ?_
    refine (ih fun e member => each e (by simp [member])).bind fun vs ws all => ?_
    obtain ⟨rfl, typed⟩ := same
    obtain ⟨rfl, allTyped⟩ := all
    exact .pure ⟨rfl, .cons (typed.imp_right And.left) allTyped⟩

/-- Values that have the types of the arguments fit where the arguments do. -/
theorem fits_of_types {scopes : Scopes} {args : List Expr} {vs : List Value} {arity : Nat}
    (typed : List.Forall₂ (fun e v => v.type = e.type scopes ∨ strays) args vs) (many : arity = args.length)
    (integers : ∀ e ∈ args, e.type scopes = .int) :
    arity = vs.length ∧ ((∀ v ∈ vs, v.type = .int) ∨ strays) := by
  refine ⟨many.trans typed.length_eq, ?_⟩
  clear many
  induction typed with
  | nil => exact .inl (by simp)
  | @cons e v es vs first _ ih =>
    obtain ⟨integer, others⟩ := List.forall_mem_cons.mp integers
    rcases first with fits | allowed
    · exact (ih others).imp_left fun all => List.forall_mem_cons.mpr ⟨fits.trans integer, all⟩
    · exact .inr allowed

/-- Operators on two integers are the same operators in C. -/
theorem binary_agrees {op : Operator} {left right : Expr} {a b : C.Expr} {l : Location}
    (leftInt : left.type (scopesOf env) = .int) (rightInt : right.type (scopesOf env) = .int)
    (first : Agrees strays (left.Yields strays (scopesOf env)) (left.eval platform source env)
      (a.eval platform target cenv))
    (second : Agrees strays (right.Yields strays (scopesOf env)) (right.eval platform source env)
      (b.eval platform target cenv)) :
    Agrees strays (SameOf .int) ((binary op left right l).eval platform source env)
      ((C.Expr.binary op a b).eval platform target cenv) := by
  rw [eval, C.Expr.eval]
  refine first.bind fun v w yields => second.bind fun v' w' yields' => ?_
  rcases yields.settled with ⟨same, settled⟩ | ⟨allowed, rfl, fails, settled⟩
  · rw [leftInt] at same
    obtain ⟨x, rfl, rfl⟩ := same.int
    rcases yields'.settled with ⟨same', settled'⟩ | ⟨allowed, rfl, fails, settled'⟩
    · rw [rightInt] at same'
      obtain ⟨y, rfl, rfl⟩ := same'.int
      rw [settled, settled', pure_bind, pure_bind]
      exact .integers platform op x y
    · rw [settled, settled', pure_bind, stop_bind]
      rw [rightInt] at fails
      cases v' with
      | int n => exact absurd rfl fails
      | str contents => exact .stop fun _ => allowed
  · rw [settled, stop_bind]
    rw [leftInt] at fails
    cases v with
    | int n => exact absurd rfl fails
    | str contents => exact .stop fun _ => allowed

/-- Two strings are put to use as they are. -/
theorem strings_agree {S : Value → Value → Prop} {op : Operator} {left right : Expr} {a b : C.Expr} {l : Location}
    {combine : Value → Value → Action Value}
    (leftStr : left.type (scopesOf env) = .str) (rightStr : right.type (scopesOf env) = .str)
    (first : Agrees strays (left.Yields strays (scopesOf env)) (left.eval platform source env)
      (a.eval platform target cenv))
    (second : Agrees strays (right.Yields strays (scopesOf env)) (right.eval platform source env)
      (b.eval platform target cenv))
    (combined : ∀ x y, Agrees strays S (operate platform op (.str x) (.str y)) (combine (.str x) (.str y))) :
    Agrees strays S ((binary op left right l).eval platform source env)
      (a.eval platform target cenv >>= fun v => b.eval platform target cenv >>= fun w => combine v w) := by
  rw [eval]
  refine first.bind fun v w yields => second.bind fun v' w' yields' => ?_
  obtain ⟨same, settled⟩ := yields.str leftStr
  obtain ⟨same', settled'⟩ := yields'.str rightStr
  obtain ⟨x, rfl, rfl⟩ := same.str
  obtain ⟨y, rfl, rfl⟩ := same'.str
  rw [settled, settled', pure_bind, pure_bind]
  exact combined x y

theorem compare_agrees {op : Operator} {left right : Expr} {a b : C.Expr} {l : Location}
    (compares : op.isComparison = true) (leftStr : left.type (scopesOf env) = .str)
    (rightStr : right.type (scopesOf env) = .str)
    (first : Agrees strays (left.Yields strays (scopesOf env)) (left.eval platform source env)
      (a.eval platform target cenv))
    (second : Agrees strays (right.Yields strays (scopesOf env)) (right.eval platform source env)
      (b.eval platform target cenv)) :
    Agrees strays (SameOf .int) ((binary op left right l).eval platform source env)
      ((C.Expr.compare op a b).eval platform target cenv) := by
  rw [C.Expr.eval]
  refine strings_agree leftStr rightStr first second fun x y => ?_
  rw [← C.integers_strcmp platform compares]
  exact .integers platform op _ 0

theorem joined_agrees {left right : Expr} {a b : C.Expr} {l : Location}
    (runnable : ∀ leaf ∈ (binary .add left right l).leaves, leaf.Runnable strays)
    (leftStr : left.type (scopesOf env) = .str) (rightStr : right.type (scopesOf env) = .str)
    (first : Agrees strays (left.Yields strays (scopesOf env)) (left.eval platform source env)
      (a.eval platform target cenv))
    (second : Agrees strays (right.Yields strays (scopesOf env)) (right.eval platform source env)
      (b.eval platform target cenv)) :
    Agrees strays (SameOf .str) ((binary .add left right l).eval platform source env)
      ((joined left right a b).eval platform target cenv) := by
  cases folded : (binary .add left right l).literalBody? with
  | some body =>
    -- Both are literals: C sees one literal, which decodes to what the sum gives.
    obtain ⟨contents, runs, plain, decodes⟩ :=
      literalBody?_value folded runnable
    have whole : C.Literal.decode? body.toList = some contents := by
      simpa [C.Literal.decode?] using decodes []
    simp only [joined_eq left right a b l, folded]
    rw [runs, C.Expr.eval, C.literal, whole]
    simp only [C.cut_eq_self plain]
    exact .pure ⟨rfl, rfl⟩
  | none =>
    simp only [joined_eq left right a b l, folded]
    rw [C.Expr.eval]
    exact strings_agree leftStr rightStr first second fun x y => .pure ⟨rfl, rfl⟩

/-- A lowered expression gives the value that the source gives, of the type that
the generator guesses. -/
theorem code_agrees (callers : CallersAgree strays functions source target) (e : Expr) (code : C.Expr)
    (lowered : e.lower functions (scopesOf env) = .ok code)
    (runnable : ∀ leaf ∈ e.leaves, leaf.Runnable strays)
    (same : ∀ name ∈ e.names, cenv.lookup? name = (codeOf env).lookup? name) :
    Agrees strays (e.Yields strays (scopesOf env)) (e.eval platform source env)
      (code.eval platform target cenv) := by
  induction e using Expr.induction generalizing code with
  | ident name l =>
    obtain ⟨⟨type, bound⟩, rfl⟩ := lower_ident_ok.mp lowered
    rw [scopesOf_lookup?] at bound
    obtain ⟨v, found, rfl⟩ := Option.map_eq_some_iff.mp bound
    have kept : cenv.lookup? name = some ⟨v.type, some v⟩ := by
      rw [same name (by simp [names]), codeOf_lookup?, found]
      rfl
    rw [eval, C.Expr.eval, C.read, found, kept]
    refine .pure ⟨rfl, .inl ?_⟩
    rw [Expr.type, scopesOf_lookup?, found]
    rfl
  | int value l =>
    obtain ⟨fits, rfl⟩ := lower_int_ok.mp lowered
    obtain ⟨low, high⟩ := (fitsInt_iff value).mp fits
    rw [eval, C.Expr.eval, C.number, if_pos ⟨low, by omega⟩]
    exact .pure ⟨rfl, .inl rfl⟩
  | str text l =>
    obtain rfl := lower_str_ok.mp lowered
    obtain ⟨noQuote, noNul⟩ := runnable (.str text) (by simp [leaves])
    have decoded := C.Literal.decode?_encode text.toList fun c member same => noQuote (same ▸ member)
    rw [eval, C.Expr.eval, C.literal, C.Literal.body, String.toList_ofList, decoded]
    simp only [C.cut_eq_self (C.Literal.nul_notMem_value noNul)]
    exact .pure ⟨rfl, .inl rfl⟩
  | binary op left right l first second =>
    obtain ⟨a, b, leftOk, rightOk, whole⟩ := lower_binary_ok.mp lowered
    have leftAgrees := first a leftOk (fun leaf member => runnable leaf (by simp [leaves, member]))
      fun name member => same name (by simp [names, member])
    have rightAgrees := second b rightOk (fun leaf member => runnable leaf (by simp [leaves, member]))
      fun name member => same name (by simp [names, member])
    rcases lowerBinary_ok.mp whole with ⟨i, j, rfl⟩ | ⟨i, j, ⟨rfl, rfl⟩ | ⟨compares, rfl⟩⟩
    · have typed : (binary op left right l).type (scopesOf env) = .int := by
        cases op <;> simp [Expr.type, i]
      exact (binary_agrees i j leftAgrees rightAgrees).mono fun v w same =>
        ⟨same.1, .inl (same.2.trans typed.symm)⟩
    · have typed : (binary .add left right l).type (scopesOf env) = .str := by
        simp [Expr.type, i, j]
      exact (joined_agrees runnable i j leftAgrees rightAgrees).mono fun v w same =>
        ⟨same.1, .inl (same.2.trans typed.symm)⟩
    · have typed : (binary op left right l).type (scopesOf env) = .int := by
        cases op <;> first | rfl | cases compares
      exact (compare_agrees compares i j leftAgrees rightAgrees).mono fun v w same =>
        ⟨same.1, .inl (same.2.trans typed.symm)⟩
  | call callee args l first each =>
    obtain ⟨name, m, codes, rfl, unbound, checked, allLowered, rfl⟩ := lower_call_ok.mp lowered
    have unknown : cenv.lookup? name = none := by
      rw [scopesOf_lookup?, Option.map_eq_none_iff] at unbound
      rw [same name (by simp [names]), codeOf_lookup?, unbound]
      rfl
    have argument : ∀ e ∈ args, (∀ leaf ∈ e.leaves, leaf.Runnable strays) ∧
        ∀ name ∈ e.names, cenv.lookup? name = (codeOf env).lookup? name := by
      intro e member
      refine ⟨fun leaf inside => runnable leaf ?_, fun other inside => same other ?_⟩
      · rw [leaves, List.mem_append]
        exact .inr (mem_leavesOfAll.mpr ⟨e, member, inside⟩)
      · rw [names, List.mem_append]
        exact .inr (mem_namesOfAll.mpr ⟨e, member, inside⟩)
    obtain ⟨named, helper⟩ : Leaf.Runnable strays (.callee name) :=
      runnable (.callee name) (by simp [leaves, calleeName?])
    rw [eval, C.Expr.eval, C.callable, if_pos unknown, pure_bind]
    refine (evalAll_agrees (fun e member code done =>
      each e member code done (argument e member).1 (argument e member).2) allLowered).bind ?_
    rintro vs ws ⟨rfl, typed⟩
    have fitting : ∀ d, functions.get? name = some d →
        d.params.length = vs.length ∧ ((∀ v ∈ vs, v.type = .int) ∨ strays) := by
      intro d found
      obtain ⟨many, integers⟩ := checked d found
      exact fits_of_types typed many integers
    exact (callers name vs named helper fitting).mono fun v w same =>
      ⟨same.1, same.2.imp_right fun allowed => ⟨allowed, rfl⟩⟩
  | func params body l => exact absurd lowered lower_func_ne_ok

/-- The tree of a lowered expression gives the value that the source gives. -/
theorem tree_agrees (callers : CallersAgree strays functions source target) (linked : Linked platform target)
    (e : Expr) (code : C.Expr) (lowered : e.lower functions (scopesOf env) = .ok code)
    (runnable : ∀ leaf ∈ e.leaves, leaf.Runnable strays)
    (same : ∀ name ∈ e.names, cenv.lookup? name = (codeOf env).lookup? name)
    (clean : ∀ name ∈ helpers, cenv.lookup? name = none) :
    Agrees strays (e.Yields strays (scopesOf env)) (e.eval platform source env)
      (code.tree.eval platform target cenv) := by
  rw [C.Expr.eval_tree linked clean]
  exact e.code_agrees callers code lowered runnable same

end Expr

namespace Generate

variable {context : Context} {scopes after : Scopes}

/-- A statement declares in the innermost frame only. -/
theorem statement_outer {s : Stmt} {code : C.Stmt}
    (done : statement context scopes s = .ok (code, after)) :
    after.frames.tail = scopes.frames.tail := by
  have typed := wellTyped_of_lowered s scopes after code done
  cases typed with
  | declare new => cases new <;> rfl
  | first unbound new => cases new; rfl
  | _ => rfl

theorem statements_outer {ss : List Stmt} {codes : List C.Stmt}
    (done : statements context scopes ss = .ok (codes, after)) :
    after.frames.tail = scopes.frames.tail := by
  induction ss generalizing scopes codes with
  | nil =>
    rw [statements] at done
    cases done
    rfl
  | cons s ss ih =>
    obtain ⟨code, middle, rest, first, later, rfl⟩ := statements_cons_ok.mp done
    rw [ih later, statement_outer first]

end Generate

theorem Run.helper_reserved : ∀ name ∈ helpers, C.isReserved name = true := by decide

/-- No variable of a program hides a function that emitted code relies on. -/
theorem Run.codeOf_clean {env : Frames Value} (named : (scopesOf env).Named) :
    ∀ name ∈ helpers, (codeOf env).lookup? name = none := by
  intro name helper
  rw [codeOf_lookup?, Option.map_eq_none_iff]
  cases found : env.lookup? name with
  | none => rfl
  | some v =>
    have bound : (scopesOf env).lookup? name = some v.type := by rw [scopesOf_lookup?, found, Option.map_some]
    cases (helper_reserved name helper).symm.trans (named.lookup? bound)

/-- Where both sides stand after a statement: with the same variables, of the types
that the generator goes on with, or left with the same integer. -/
inductive Run.Flows (after : Scopes) : Flow Value → Flow C.Variable → Prop where
  | next {env : Frames Value} (typed : scopesOf env = after) :
      Flows after (.next env) (.next (codeOf env))
  | returned {n : Int} : Flows after (.returned (.int n)) (.returned (.int n))

namespace Stmt

variable {strays : Prop} {platform : Platform} {context : Generate.Context} {source target : Caller}
  {env : Frames Value} {after : Scopes}

/-- The trees of the lowered statement do what the statement does, wherever it stands. -/
def Simulated (strays : Prop) (platform : Platform) (context : Generate.Context) (source target : Caller)
    (s : Stmt) : Prop :=
  ∀ env after code, (scopesOf env).Named → Generate.statement context (scopesOf env) s = .ok (code, after) →
    Agrees strays (Flows after) (s.exec platform source (!context.inFunction) env)
      (C.Grammar.Stmt.execAll platform target (codeOf env) code.trees)

/-- A new variable gets its value where C already knows its name. -/
theorem declare_agrees (callers : CallersAgree strays context.functions source target)
    (linked : Linked platform target) (named : (scopesOf env).Named) {name : String}
    {value : Expr} {l : Location} {code : C.Stmt} {finish : Value → Action (Flow Value)}
    (finishes : ∀ v, finish v = pure (.next (env.declare name v)))
    (done : Generate.declaration context.functions (scopesOf env) name (some value) l =
      .ok (code, after))
    (runnable : ∀ leaf ∈ value.leaves, leaf.Runnable strays) :
    Agrees strays (Flows after) (tick >>= fun _ => value.result platform source env >>= finish)
      (C.Grammar.Stmt.execAll platform target (codeOf env) code.trees) := by
  obtain ⟨free, unused, inner, lowered, declared, rfl⟩ := Generate.declaration_some_ok.mp done
  obtain ⟨fresh, rfl⟩ := Scopes.declare?_eq_some.mp declared
  rw [value.mention?_eq_none] at unused
  rw [C.Stmt.trees, C.Grammar.Stmt.execAll_singleton, C.Grammar.Stmt.exec]
  refine Agrees.tick.bind fun _ _ _ => ?_
  rw [codeOf_innermost, if_neg fresh, C.Grammar.declare]
  refine Expr.result_agrees (value.tree_agrees callers linked inner lowered runnable (fun other member => ?_)
    fun other helper => ?_) (fun v typed => ?_) fun v fails => if_neg fails
  · exact Frames.lookup?_declare_ne _ _ fun same => unused (same ▸ member)
  · have different : other ≠ name := by
      rintro rfl
      cases (helper_reserved other helper).symm.trans free
    rw [Frames.lookup?_declare_ne _ _ different]
    exact codeOf_clean named other helper
  · rw [finishes, if_pos typed, ← typed, ← codeOf_declare]
    exact .pure (.next (scopesOf_declare env name v))

theorem assign_agrees (callers : CallersAgree strays context.functions source target)
    (linked : Linked platform target) (named : (scopesOf env).Named) {name : String}
    {value : Expr} {l : Location} {code : C.Stmt}
    (done : Generate.assignment context.functions (scopesOf env) name value l = .ok (code, after))
    (runnable : ∀ leaf ∈ value.leaves, leaf.Runnable strays) :
    Agrees strays (Flows after) ((assign name value l).exec platform source (!context.inFunction) env)
      (C.Grammar.Stmt.execAll platform target (codeOf env) code.trees) := by
  rw [exec]
  rcases Generate.assignment_ok.mp done with ⟨unbound, new⟩ | ⟨bound, rfl, inner, lowered, rfl⟩
  · refine declare_agrees callers linked named (fun v => ?_) new runnable
    rw [scopesOf_lookup?, Option.map_eq_none_iff] at unbound
    rw [(Frames.assign?_eq_none env name v).mpr unbound]
  · rw [C.Stmt.trees, C.Grammar.Stmt.execAll_singleton, C.Grammar.Stmt.exec]
    have known := bound
    rw [scopesOf_lookup?] at known
    obtain ⟨old, found, oldType⟩ := Option.map_eq_some_iff.mp known
    refine Agrees.tick.bind fun _ _ _ => ?_
    refine Expr.result_agrees (value.tree_agrees callers linked inner lowered runnable (fun _ _ => rfl)
      (codeOf_clean named)) (fun v typed => ?_) fun v fails => ?_
    · rw [← typed] at bound oldType
      cases assigned : env.assign? name v with
      | none =>
        rw [Frames.assign?_eq_none, found] at assigned
        cases assigned
      | some later =>
        have stored : (codeOf env).assign? name ⟨v.type, some v⟩ = some (codeOf later) := by
          have mapped := Frames.assign?_map (fun v => (⟨v.type, some v⟩ : C.Variable)) env name v
          rw [assigned] at mapped
          exact mapped
        simp only [C.Grammar.store, codeOf_lookup?, found, Option.map_some, oldType, if_true, stored]
        exact .pure (.next (scopesOf_assign bound assigned))
    · simp only [C.Grammar.store, codeOf_lookup?, found, Option.map_some, oldType]
      exact if_neg fails.symm

/-- What is written says its type in both languages. -/
theorem print_agrees (callers : CallersAgree strays context.functions source target)
    (linked : Linked platform target) (named : (scopesOf env).Named) {value : Expr} {inner : C.Expr}
    (lowered : value.lower context.functions (scopesOf env) = .ok inner)
    (runnable : ∀ leaf ∈ value.leaves, leaf.Runnable strays) :
    Agrees strays (Flows (scopesOf env))
      (tick >>= fun _ => value.result platform source env >>= fun v => writeLine v >>= fun _ => pure (.next env))
      (C.Grammar.Stmt.execAll platform target (codeOf env)
        (C.Stmt.print (value.type (scopesOf env)) inner).trees) := by
  have clean := codeOf_clean named
  rw [C.Stmt.trees, C.Grammar.Stmt.execAll_singleton,
    C.Grammar.Stmt.exec_print linked (clean "printf" (by decide))]
  refine Agrees.tick.bind fun _ _ _ => ?_
  refine Expr.result_agrees (value.tree_agrees callers linked inner lowered runnable (fun _ _ => rfl) clean)
    (fun v typed => ?_) fun v fails => if_neg fails
  rw [if_pos typed]
  exact (Agrees.writeLine v).bind fun _ _ _ => .pure (.next rfl)

/-- Statements in order agree as soon as each of them does. -/
theorem execAll_agrees {ss : List Stmt} {codes : List C.Stmt} (named : (scopesOf env).Named)
    (each : ∀ s ∈ ss, s.Simulated strays platform context source target)
    (done : Generate.statements context (scopesOf env) ss = .ok (codes, after)) :
    Agrees strays (Flows after) (execAll platform source (!context.inFunction) env ss)
      (C.Grammar.Stmt.execAll platform target (codeOf env) (C.Stmt.treesOfAll codes)) := by
  induction ss generalizing env codes with
  | nil =>
    rw [Generate.statements] at done
    cases done
    rw [execAll, C.Stmt.treesOfAll, C.Grammar.Stmt.execAll]
    exact .pure (.next rfl)
  | cons s ss ih =>
    obtain ⟨code, middle, rest, first, later, rfl⟩ := Generate.statements_cons_ok.mp done
    rw [execAll, C.Stmt.treesOfAll, C.Grammar.Stmt.execAll_append]
    refine (each s (by simp) env middle code named first).bind fun flow flow' flows => ?_
    cases flows with
    | returned => exact .pure .returned
    | next typed =>
      have namedAfter := Generate.statement_named first named
      subst typed
      exact ih namedAfter (fun s member => each s (by simp [member])) later

/-- A block agrees, and the frame that it opens is taken away again. -/
theorem execBlock_agrees {body : Block} {codes : List C.Stmt} (named : (scopesOf env).Named)
    (each : ∀ s ∈ body.statements, s.Simulated strays platform context source target)
    (done : Generate.block context (scopesOf env) body = .ok codes) :
    Agrees strays (Flows (scopesOf env)) (execBlock platform source (!context.inFunction) env body)
      (C.Grammar.Stmt.execBlock platform target (codeOf env) (C.Stmt.treesOfAll codes)) := by
  obtain ⟨final, inside⟩ := Generate.block_ok.mp done
  obtain ⟨body, l⟩ := body
  have outer := Generate.statements_outer inside
  have opened : Generate.statements context (scopesOf ([] :: env)) body = .ok (codes, final) := inside
  have namedInside : (scopesOf ([] :: env)).Named := named.push
  rw [execBlock, C.Grammar.Stmt.execBlock]
  refine (execAll_agrees namedInside each opened).bind fun flow flow' flows => ?_
  cases flows with
  | returned => exact .pure .returned
  | @next inner typed =>
    have closed : scopesOf inner.tail = scopesOf env := by
      rw [← typed] at outer
      rw [scopesOf, Frames.map, List.map_tail]
      exact congrArg Scopes.mk outer
    have kept : codeOf inner.tail = (codeOf inner).tail := List.map_tail
    refine .pure ?_
    rw [Flow.close, Flow.close, ← kept]
    exact .next closed

/-- A lowered statement does what the statement does. -/
theorem exec_agrees (callers : CallersAgree strays context.functions source target)
    (linked : Linked platform target) (s : Stmt) (runnable : ∀ leaf ∈ s.leaves, leaf.Runnable strays) :
    s.Simulated strays platform context source target := by
  induction s using Stmt.induction with
  | declare name value l =>
    intro env after code named done
    rw [Generate.statement] at done
    cases value with
    | none =>
      obtain ⟨_, declared, rfl⟩ := Generate.declaration_none_ok.mp done
      obtain ⟨fresh, rfl⟩ := Scopes.declare?_eq_some.mp declared
      rw [exec, C.Stmt.trees, C.Grammar.Stmt.execAll_singleton, C.Grammar.Stmt.exec]
      refine Agrees.tick.bind fun _ _ _ => ?_
      rw [codeOf_innermost, if_neg fresh, C.Grammar.declare]
      refine (Agrees.unset platform name).bind ?_
      rintro v w ⟨rfl, typed⟩
      rw [← typed, ← codeOf_declare]
      exact .pure (.next (scopesOf_declare env name v))
    | some value =>
      rw [exec]
      exact declare_agrees callers linked named (fun _ => rfl) done fun leaf member =>
        runnable leaf (by simp [leaves, Expr.leavesOfOption, member])
  | assign name value l =>
    intro env after code named done
    rw [Generate.statement] at done
    exact assign_agrees callers linked named done fun leaf member => runnable leaf (by simp [leaves, member])
  | print value l =>
    intro env after code named done
    rw [Generate.statement, Generate.keeping_ok] at done
    obtain ⟨printed, rfl⟩ := done
    obtain ⟨inner, lowered, rfl⟩ := Generate.output_ok.mp printed
    rw [exec]
    exact print_agrees callers linked named lowered fun leaf member => runnable leaf (by simp [leaves, member])
  | branch condition consequence alternative l taken untaken =>
    intro env after code named done
    obtain ⟨rfl, test, yes, no, tested, first, second, rfl⟩ := Generate.branch_ok.mp done
    rw [exec, C.Stmt.trees, C.Grammar.Stmt.execAll_singleton, C.Grammar.Stmt.exec]
    refine Agrees.tick.bind fun _ _ _ => ?_
    refine (condition.tree_agrees callers linked test tested (fun leaf member => runnable leaf
      (by simp [leaves, member])) (fun _ _ => rfl) (codeOf_clean named)).bind ?_
    rintro v w ⟨rfl, _⟩
    by_cases holds : v.isTrue = true
    · rw [if_pos holds, if_pos holds]
      refine execBlock_agrees named (fun s member => taken s member fun leaf inside => ?_) first
      exact runnable leaf (by simp [leaves, Block.leaves_of_mem member inside])
    · rw [if_neg holds, if_neg holds]
      rcases Generate.optionalBlock_ok.mp second with ⟨rfl, rfl⟩ | ⟨body, codes, rfl, lowered, rfl⟩
      · rw [execOption, C.Stmt.treesOfOption, C.Grammar.Stmt.execOption]
        exact .pure (.next rfl)
      · rw [execOption, C.Stmt.treesOfOption, C.Grammar.Stmt.execOption]
        refine execBlock_agrees named (fun s member => untaken body rfl s member fun leaf inside => ?_) lowered
        exact runnable leaf
          (by simp [leaves, Block.leavesOfOption, Block.leaves_of_mem member inside])
  | block body each =>
    intro env after code named done
    obtain ⟨rfl, inner, lowered, rfl⟩ := Generate.statement_block_ok.mp done
    rw [exec, C.Stmt.trees, C.Grammar.Stmt.execAll_singleton, C.Grammar.Stmt.exec]
    refine Agrees.tick.bind fun _ _ _ => ?_
    refine execBlock_agrees named (fun s member => each s member fun leaf inside => ?_) lowered
    exact runnable leaf (by simp [leaves, Block.leaves_of_mem member inside])
  | foreign name l =>
    intro env after code named done
    rw [Generate.statement] at done
    cases done
    rw [exec, C.Stmt.trees, C.Grammar.Stmt.execAll]
    exact .pure (.next rfl)
  | ret value l =>
    intro env after code named done
    rw [Generate.statement, Generate.keeping_ok] at done
    obtain ⟨returned, rfl⟩ := done
    cases value with
    | none =>
      cases returned
      rw [exec, C.Stmt.trees, C.Grammar.Stmt.execAll_singleton, C.Grammar.Stmt.exec]
      exact Agrees.tick.bind fun _ _ _ => .pure .returned
    | some value =>
      obtain ⟨integer, inner, lowered, rfl⟩ := Generate.returning_some_ok.mp returned
      rw [exec, C.Stmt.trees, C.Grammar.Stmt.execAll_singleton, C.Grammar.Stmt.exec]
      refine Agrees.tick.bind fun _ _ _ => ?_
      refine Expr.result_agrees (value.tree_agrees callers linked inner lowered (fun leaf member => runnable leaf
        (by simp [leaves, Expr.leavesOfOption, member])) (fun _ _ => rfl) (codeOf_clean named))
        (fun v typed => ?_) fun v fails => if_neg (integer ▸ fails)
      rw [integer] at typed
      rw [if_pos typed]
      obtain ⟨n, rfl, _⟩ := SameOf.int ⟨rfl, typed⟩
      exact .pure .returned
  | func name params body l =>
    intro env after code named done
    rw [Generate.statement] at done
    cases done
  | expr value l =>
    intro env after code named done
    rw [Generate.statement, Generate.keeping_ok] at done
    obtain ⟨evaluated, rfl⟩ := done
    obtain ⟨inner, lowered, rfl⟩ := Generate.bare_ok.mp evaluated
    have runs : ∀ leaf ∈ value.leaves, leaf.Runnable strays :=
      fun leaf member => runnable leaf (by simp [leaves, member])
    rw [exec]
    cases context.inFunction with
    | true =>
      rw [if_pos rfl, C.Stmt.trees, C.Grammar.Stmt.execAll_singleton, C.Grammar.Stmt.exec]
      refine Agrees.tick.bind fun _ _ _ => ?_
      exact (value.tree_agrees callers linked inner lowered runs (fun _ _ => rfl) (codeOf_clean named)).bind
        fun _ _ _ => .pure (.next rfl)
    | false =>
      rw [if_neg Bool.false_ne_true]
      exact print_agrees callers linked named lowered runs

end Stmt

end ImpToC
