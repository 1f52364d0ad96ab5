import ImpToC.Proofs.Acceptance
import ImpToC.Proofs.Translation

/-!
Code as a C tree. The generator has its own way to hold C, with one form for each thing that
it emits: output, comparing and joining strings are forms of their own there, and calls in the
tree. Code that is lowered from a program has the tree that the program is translated to.
-/
namespace ImpToC

namespace C

mutual

/-- The tree of an expression. The two helpers are ordinary calls in the text, and so they are here. -/
def Expr.tree : Expr → Grammar.Expr
  | var name => .ident name
  | int value => .int value
  | str body => .str body.toList
  | binary op left right => .binary op left.tree right.tree
  | compare op left right => .compare op left.tree right.tree
  | concat left right => .call (.ident "concat_strings") [left.tree, right.tree]
  | call function args => .call (.ident function) (Expr.treesOfAll args)

def Expr.treesOfAll : List Expr → List Grammar.Expr
  | [] => []
  | e :: es => e.tree :: Expr.treesOfAll es

end

mutual

/-- A statement is one tree; a comment is none. -/
def Stmt.trees : Stmt → List Grammar.Stmt
  | declare type name none => [.declare type name none]
  | declare type name (some value) => [.declare type name (some value.tree)]
  | assign name value => [.assign name value.tree]
  | print type value => [.print type value.tree]
  | branch condition consequence alternative =>
    [.branch condition.tree (Stmt.treesOfAll consequence) (Stmt.treesOfOption alternative)]
  | block body => [.block (Stmt.treesOfAll body)]
  | foreign _ => []
  | ret value => [.ret value.tree]
  | eval value => [.expr value.tree]

def Stmt.treesOfAll : List Stmt → List Grammar.Stmt
  | [] => []
  | s :: ss => s.trees ++ Stmt.treesOfAll ss

def Stmt.treesOfOption : Option (List Stmt) → Option (List Grammar.Stmt)
  | none => none
  | some body => some (Stmt.treesOfAll body)

end

theorem Stmt.treesOfAll_append (xs ys : List Stmt) :
    Stmt.treesOfAll (xs ++ ys) = Stmt.treesOfAll xs ++ Stmt.treesOfAll ys := by
  induction xs with
  | nil => rfl
  | cons s ss ih => rw [List.cons_append, treesOfAll, treesOfAll, ih, List.append_assoc]

def Function.prototypeItem (f : Function) : Grammar.Item := .prototype f.name f.params

/-- A definition with the trees of its body. -/
def Function.definitionItem (f : Function) : Grammar.Item :=
  .definition f.name f.params (Stmt.treesOfAll f.body)

/-- The file that code is written as: all prototypes, all definitions, and the main function. -/
def Code.items (c : Code) : List Grammar.Item :=
  c.functions.map Function.prototypeItem ++ c.functions.map Function.definitionItem ++
    [(Function.mk "main" [] c.main).definitionItem]

end C

namespace Expr

variable {functions : FunctionTable} {scopes : Scopes}

/-- A sum of literals is translated to the one literal it is folded to. -/
theorem translate_of_literalBody? {e : Expr} {body : String} (folded : e.literalBody? = some body) :
    e.type scopes = .str ∧ e.translate scopes = .str body.toList := by
  induction e using Expr.induction generalizing body with
  | str text l =>
    simp only [literalBody?, Option.some.injEq] at folded
    subst folded
    rw [Expr.translate, C.Literal.body, String.toList_ofList]
    exact ⟨rfl, rfl⟩
  | binary op left right l first second =>
    cases op with
    | add =>
      simp only [literalBody?] at folded
      split at folded
      · next x y leftBody rightBody =>
        cases folded
        obtain ⟨leftType, leftTree⟩ := first leftBody
        obtain ⟨rightType, rightTree⟩ := second rightBody
        rw [String.toList_append]
        refine ⟨by simp [Expr.type, leftType, rightType], ?_⟩
        rw [Expr.translate, leftType, leftTree, rightTree]
        rfl
      · cases folded
    | _ => simp [literalBody?] at folded
  | _ => simp [literalBody?] at folded

/-- Only sums of literals are translated to literals. -/
theorem literalBody?_of_translate {e : Expr} {body : List Char}
    (tree : e.translate scopes = .str body) : ∃ folded, e.literalBody? = some folded := by
  induction e using Expr.induction generalizing body with
  | str text l => exact ⟨_, rfl⟩
  | binary op left right l first second =>
    rw [Expr.translate] at tree
    unfold C.Grammar.Expr.operation at tree
    split at tree
    · cases tree
    · unfold C.Grammar.Expr.join at tree
      split at tree
      · next a b leftTree rightTree =>
        obtain ⟨x, leftBody⟩ := first leftTree
        obtain ⟨y, rightBody⟩ := second rightTree
        exact ⟨x ++ y, by simp [literalBody?, leftBody, rightBody]⟩
      · cases tree
    · cases tree
  | ident name l => simp [Expr.translate] at tree
  | int value l => simp [Expr.translate] at tree
  | call callee args l first each => simp [Expr.translate] at tree
  | func params body l => simp [Expr.translate] at tree

/-- Strings that are joined: one literal, or a call where one operand is none. -/
theorem join_translate (scopes : Scopes) (left right : Expr) :
    (∃ x y, left.literalBody? = some x ∧ right.literalBody? = some y ∧
      (left.translate scopes).join (right.translate scopes) = .str (x ++ y).toList ∧
      ∀ a b, joined left right a b = .str (x ++ y)) ∨
    (left.translate scopes).join (right.translate scopes) =
        .call (.ident "concat_strings") [left.translate scopes, right.translate scopes] ∧
      ∀ a b, joined left right a b = .concat a b := by
  by_cases both : ∃ x y, left.literalBody? = some x ∧ right.literalBody? = some y
  · obtain ⟨x, y, leftBody, rightBody⟩ := both
    refine .inl ⟨x, y, leftBody, rightBody, ?_, fun a b => ?_⟩
    · rw [(translate_of_literalBody? leftBody).2, (translate_of_literalBody? rightBody).2,
        C.Grammar.Expr.join, String.toList_append]
    · simp only [joined, leftBody, rightBody]
  · refine .inr ⟨?_, fun a b => ?_⟩
    · unfold C.Grammar.Expr.join
      split
      · next leftTree rightTree =>
        obtain ⟨x, leftBody⟩ := literalBody?_of_translate leftTree
        obtain ⟨y, rightBody⟩ := literalBody?_of_translate rightTree
        exact absurd ⟨x, y, leftBody, rightBody⟩ both
      · rfl
    · unfold joined
      split
      · next x y leftBody rightBody => exact absurd ⟨x, y, leftBody, rightBody⟩ both
      · rfl

theorem treesOfAll_lowered {args : List Expr} {codes : List C.Expr}
    (each : ∀ e ∈ args, ∀ code, e.lower functions scopes = .ok code → code.tree = e.translate scopes)
    (lowered : List.Forall₂ (fun e code => e.lower functions scopes = .ok code) args codes) :
    C.Expr.treesOfAll codes = translateAll scopes args := by
  induction lowered with
  | nil => rfl
  | @cons e code es codes first others ih =>
    rw [C.Expr.treesOfAll, translateAll, each e (by simp) code first,
      ih fun e member => each e (by simp [member])]

/-- A lowered expression has the tree of the expression. -/
theorem lowered_tree (e : Expr) (code : C.Expr) (lowered : e.lower functions scopes = .ok code) :
    code.tree = e.translate scopes := by
  induction e using Expr.induction generalizing code with
  | ident name l =>
    obtain ⟨_, rfl⟩ := lower_ident_ok.mp lowered
    rfl
  | int value l =>
    obtain ⟨_, rfl⟩ := lower_int_ok.mp lowered
    rfl
  | str text l =>
    obtain rfl := lower_str_ok.mp lowered
    rw [C.Expr.tree, C.Literal.body, String.toList_ofList, translate]
  | binary op left right l first second =>
    obtain ⟨a, b, leftOk, rightOk, whole⟩ := lower_binary_ok.mp lowered
    have leftTree := first a leftOk
    have rightTree := second b rightOk
    rw [translate]
    rcases lowerBinary_ok.mp whole with ⟨i, _, rfl⟩ | ⟨i, _, ⟨rfl, rfl⟩ | ⟨compares, rfl⟩⟩
    · rw [i, C.Expr.tree, leftTree, rightTree, C.Grammar.Expr.operation]
    · rw [i, C.Grammar.Expr.operation]
      rcases join_translate scopes left right with ⟨x, y, _, _, tree, merged⟩ | ⟨tree, kept⟩
      · rw [tree, merged, C.Expr.tree]
      · rw [tree, kept, C.Expr.tree, leftTree, rightTree]
    · rw [i, C.Expr.tree, leftTree, rightTree]
      cases op <;> first | rfl | cases compares
  | call callee args l first each =>
    obtain ⟨name, m, codes, rfl, _, _, allLowered, rfl⟩ := lower_call_ok.mp lowered
    rw [C.Expr.tree, treesOfAll_lowered each allLowered, translate, translate]
  | func params body l => exact absurd lowered lower_func_ne_ok

end Expr

namespace Stmt

variable {context : Generate.Context}

/-- What is known of a lowered statement: it has the tree of the statement, and the variables
after it are the ones that the translation goes on with. -/
def Translated (context : Generate.Context) (scopes : Scopes) (s : Stmt) (code : C.Stmt) (after : Scopes) : Prop :=
  s.translate context.inFunction scopes = (code.trees, after)

/-- A new variable, whether it was declared or came up in an assignment. -/
theorem translateNew_lowered {scopes after : Scopes} {name : String} {value : Expr} {l : Location}
    {code : C.Stmt}
    (done : Generate.declaration context.functions scopes name (some value) l = .ok (code, after)) :
    ([value.translateNew scopes name], scopes.bind name (value.type scopes)) = (code.trees, after) := by
  obtain ⟨_, _, inner, lowered, declared, rfl⟩ := Generate.declaration_some_ok.mp done
  obtain ⟨_, rfl⟩ := Scopes.declare?_eq_some.mp declared
  rw [C.Stmt.trees, value.lowered_tree inner lowered, Expr.translateNew]

theorem translateAll_lowered {ss : List Stmt} {codes : List C.Stmt} {scopes after : Scopes}
    (each : ∀ s ∈ ss, ∀ scopes after code,
      Generate.statement context scopes s = .ok (code, after) → Translated context scopes s code after)
    (done : Generate.statements context scopes ss = .ok (codes, after)) :
    translateAll context.inFunction scopes ss = C.Stmt.treesOfAll codes := by
  induction ss generalizing scopes codes with
  | nil =>
    rw [Generate.statements] at done
    cases done
    rfl
  | cons s ss ih =>
    obtain ⟨code, middle, others, first, later, rfl⟩ := Generate.statements_cons_ok.mp done
    rw [translateAll, each s (by simp) scopes middle code first, C.Stmt.treesOfAll,
      ih (fun s member => each s (by simp [member])) later]

theorem translateBlock_lowered {body : Block} {codes : List C.Stmt} {scopes : Scopes}
    (each : ∀ s ∈ body.statements, ∀ scopes after code,
      Generate.statement context scopes s = .ok (code, after) → Translated context scopes s code after)
    (done : Generate.block context scopes body = .ok codes) :
    body.translate context.inFunction scopes = C.Stmt.treesOfAll codes := by
  obtain ⟨final, inside⟩ := Generate.block_ok.mp done
  obtain ⟨body, l⟩ := body
  exact translateAll_lowered each inside

/-- The trees of a statement that has code are its translation, and the scopes go on as the
translation says. -/
theorem lowered_translated (s : Stmt) (scopes after : Scopes) (code : C.Stmt)
    (done : Generate.statement context scopes s = .ok (code, after)) :
    Translated context scopes s code after := by
  unfold Translated
  induction s using Stmt.induction generalizing scopes after code with
  | declare name value l =>
    rw [Generate.statement] at done
    cases value with
    | none =>
      obtain ⟨_, declared, rfl⟩ := Generate.declaration_none_ok.mp done
      obtain ⟨_, rfl⟩ := Scopes.declare?_eq_some.mp declared
      rfl
    | some value => exact translateNew_lowered done
  | assign name value l =>
    rw [Generate.statement] at done
    rcases Generate.assignment_ok.mp done with ⟨unbound, new⟩ | ⟨bound, rfl, code, lowered, rfl⟩
    · rw [translate, unbound]
      exact translateNew_lowered new
    · rw [translate, bound, C.Stmt.trees, value.lowered_tree code lowered]
  | print value l =>
    rw [Generate.statement, Generate.keeping_ok] at done
    obtain ⟨printed, rfl⟩ := done
    obtain ⟨inner, lowered, rfl⟩ := Generate.output_ok.mp printed
    rw [translate, C.Stmt.trees, value.lowered_tree inner lowered]
  | branch condition consequence alternative l taken untaken =>
    obtain ⟨rfl, test, yes, no, tested, first, second, rfl⟩ := Generate.branch_ok.mp done
    rw [translate, C.Stmt.trees, condition.lowered_tree test tested, translateBlock_lowered taken first]
    rcases Generate.optionalBlock_ok.mp second with ⟨rfl, rfl⟩ | ⟨body, codes, rfl, lowered, rfl⟩
    · rw [Block.translateOption, C.Stmt.treesOfOption]
    · rw [Block.translateOption, C.Stmt.treesOfOption, translateBlock_lowered (untaken body rfl) lowered]
  | block body each =>
    obtain ⟨rfl, inner, lowered, rfl⟩ := Generate.statement_block_ok.mp done
    rw [translate, C.Stmt.trees, translateBlock_lowered each lowered]
  | foreign name l =>
    rw [Generate.statement] at done
    cases done
    rfl
  | ret value l =>
    rw [Generate.statement, Generate.keeping_ok] at done
    obtain ⟨returned, rfl⟩ := done
    cases value with
    | none =>
      cases returned
      rfl
    | some value =>
      obtain ⟨_, inner, lowered, rfl⟩ := Generate.returning_some_ok.mp returned
      rw [translate, C.Stmt.trees, value.lowered_tree inner lowered]
  | func name params body l =>
    rw [Generate.statement] at done
    cases done
  | expr value l =>
    rw [Generate.statement, Generate.keeping_ok] at done
    obtain ⟨evaluated, rfl⟩ := done
    obtain ⟨inner, lowered, rfl⟩ := Generate.bare_ok.mp evaluated
    rw [translate, ← value.lowered_tree inner lowered]
    cases context.inFunction <;> rfl

end Stmt

theorem FunctionDef.returns_eq (d : FunctionDef) :
    d.body.statements.getLast?.any Stmt.isReturn = Generate.endsInReturn d.body.statements := by
  unfold Generate.endsInReturn
  cases d.body.statements.getLast? with
  | none => rfl
  | some s => cases s <;> rfl

/-- A function that has code has the body of its translation, with the return that is added if none
is there. -/
theorem FunctionDef.translateBody_lowered {table : FunctionTable} {d : FunctionDef} {f : C.Function}
    (done : Generate.function table d = .ok f) :
    f.name = d.name ∧ f.params = d.params ∧ C.Stmt.treesOfAll f.body = d.translateBody := by
  obtain ⟨scopes, codes, final, declared, lowered, rfl⟩ := Generate.function_ok.mp done
  obtain ⟨_, _, rfl⟩ := Generate.parameters_ok.mp declared
  refine ⟨rfl, rfl, ?_⟩
  have body := Stmt.translateAll_lowered (fun s _ => s.lowered_translated) lowered
  rw [C.Stmt.treesOfAll_append, ← body, translateBody, returns_eq]
  cases Generate.endsInReturn d.body.statements <;> rfl

theorem FunctionDef.items_lowered {table : FunctionTable} {ds : List FunctionDef} {fs : List C.Function}
    (lowered : List.Forall₂ (fun d f => Generate.function table d = .ok f) ds fs) :
    fs.map C.Function.prototypeItem = ds.map (fun d => .prototype d.name d.params) ∧
      fs.map C.Function.definitionItem = ds.map (fun d => .definition d.name d.params d.translateBody) := by
  induction lowered with
  | nil => exact ⟨rfl, rfl⟩
  | cons first _ ih =>
    obtain ⟨name, params, body⟩ := translateBody_lowered first
    simp only [List.map_cons, ih, C.Function.prototypeItem, C.Function.definitionItem, name, params, body,
      and_self]

/-- The code of a program has the tree that the program is translated to. -/
theorem Program.items_eq_translation {p : Program} {c : C.Code} (done : p.generate = .ok c) :
    c.items = p.translation := by
  obtain ⟨_, functions, main⟩ := generate_ok.mp done
  obtain ⟨codes, final, lowered, whole⟩ := Generate.mainBody_ok.mp main
  obtain ⟨prototypes, definitions⟩ := FunctionDef.items_lowered functions
  have body : Stmt.translateAll false _ p.mainStatements = _ :=
    Stmt.translateAll_lowered (fun s _ => s.lowered_translated) lowered
  rw [C.Code.items, prototypes, definitions, C.Function.definitionItem, whole, C.Stmt.treesOfAll_append, ← body,
    translation]
  rfl

end ImpToC
