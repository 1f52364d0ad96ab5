import ImpToC.Proofs.C.Tree
import ImpToC.Proofs.Run.Code

/-!
Running a C tree, as it is read from a text. Variables have a type and live in the block that
declares them, from their own declaration on; functions take and return integers. Each statement
takes one step, and so does each call of a function that the file defines. Whatever C leaves
undefined is `stuck`: a variable that is declared twice in a block, a value of another type than
its variable, a function that is left without a value, a call of a variable. The value of code is
the value of its tree.
-/
namespace ImpToC.C.Grammar

open Run

namespace Expr

mutual

def eval (platform : Platform) (call : Caller) (env : Env) : Expr → Action Value
  | .ident name => read env name
  | .int value => number value
  | .str body => literal body
  | .binary op left right => do
    let a ← left.eval platform call env
    let b ← right.eval platform call env
    operate platform op a b
  | .call (.ident function) args => do
    callable env function
    let values ← evalAll platform call env args
    call function values
  | .call _ _ => stop .stuck

def evalAll (platform : Platform) (call : Caller) (env : Env) : List Expr → Action (List Value)
  | [] => pure []
  | e :: es => do
    let v ← e.eval platform call env
    let vs ← evalAll platform call env es
    pure (v :: vs)

end

end Expr

/-- Put a value into a variable of its type. -/
def store (env : Env) (name : String) (v : Value) : Action (Flow Variable) :=
  match env.lookup? name with
  | none => stop .stuck
  | some old =>
    if old.type = v.type then
      match env.assign? name ⟨v.type, some v⟩ with
      | some after => pure (.next after)
      | none => stop .stuck
    else stop .stuck

/-- A declaration. The name is in scope within its own initial value. -/
def declare (platform : Platform) (call : Caller) (env : Env) (type : ValueType) (name : String) :
    Option Expr → Action (Flow Variable)
  | none =>
    match type with
    | .int => do
      let v ← unset platform name
      pure (.next (env.declare name ⟨.int, some v⟩))
    | .str => pure (.next (env.declare name ⟨.str, none⟩))
  | some value => do
    let v ← value.eval platform call (env.declare name ⟨type, none⟩)
    if v.type = type then pure (.next (env.declare name ⟨type, some v⟩)) else stop .stuck

namespace Stmt

mutual

def exec (platform : Platform) (call : Caller) (env : Env) : Stmt → Action (Flow Variable)
  | .declare type name value => do
    tick
    if name ∈ (env.headD []).map Prod.fst then stop .stuck
    else Grammar.declare platform call env type name value
  | .assign name value => do
    tick
    let v ← value.eval platform call env
    store env name v
  | .expr value => do
    tick
    let _ ← value.eval platform call env
    pure (.next env)
  | .ret value => do
    tick
    let v ← value.eval platform call env
    if v.type = .int then pure (.returned v) else stop .stuck
  | .branch condition consequence alternative => do
    tick
    let v ← condition.eval platform call env
    if v.isTrue then execBlock platform call env consequence
    else execOption platform call env alternative
  | .block body => do
    tick
    execBlock platform call env body

/-- The statements of a block have a frame of their own, which ends with them. -/
def execBlock (platform : Platform) (call : Caller) (env : Env) (body : List Stmt) : Action (Flow Variable) := do
  let flow ← execAll platform call ([] :: env) body
  pure flow.close

def execOption (platform : Platform) (call : Caller) (env : Env) :
    Option (List Stmt) → Action (Flow Variable)
  | none => pure (.next env)
  | some body => execBlock platform call env body

/-- Statements one after the other, up to a return. -/
def execAll (platform : Platform) (call : Caller) (env : Env) :
    List Stmt → Action (Flow Variable)
  | [] => pure (.next env)
  | s :: ss => do
    match ← s.exec platform call env with
    | .next after => execAll platform call after ss
    | .returned v => pure (.returned v)

end

/-- The body of a function, which has to return. -/
def execBody (platform : Platform) (call : Caller) (params : List (String × Value))
    (body : List Stmt) : Action Value := do
  let env : Env := params.foldl (fun env (name, v) => env.declare name ⟨.int, some v⟩) [[]]
  match ← execAll platform call env body with
  | .returned v => pure v
  | .next _ => stop .stuck

end Stmt

/-- What an item defines under this name: the parameters and the body of a function. -/
def Item.defines? (name : String) : Item → Option (List String × List Stmt)
  | .definition other params body => if other = name then some (params, body) else none
  | .prototype _ _ => none

/-- The function of this name that a file defines, with its parameters. -/
def definition? (items : List Item) (name : String) : Option (List String × List Stmt) :=
  items.findSome? (Item.defines? name)

/-- Enter a function, given by its parameters and its body. The main function is declared
without a word on its parameters, and takes no notice of arguments. -/
def enter (platform : Platform) (call : Caller) (name : String) (args : List Value)
    (function : List String × List Stmt) : Action Value :=
  if name = "main" ∨ function.1.length = args.length ∧ ∀ v ∈ args, v.type = .int then
    Stmt.execBody platform call (function.1.zip args) function.2
  else stop .stuck

/-- What can be called. -/
def bodies (platform : Platform) (items : List Item) : Bodies := fun call name args =>
  (definition? items name).map (enter platform call name args)

/-- What a file does when it is started. -/
def execMain (platform : Platform) (call : Caller) (items : List Item) : Action Value :=
  match definition? items "main" with
  | some (_, body) => Stmt.execBody platform call [] body
  | none => stop .stuck

/-- All that can be seen of a file in so many steps. -/
def run (platform : Platform) (bound : Nat) (items : List Item) : Outcome :=
  (execMain platform (calling platform (bodies platform items) bound) items).outcome bound

end ImpToC.C.Grammar

namespace ImpToC

open Run

/-- Calls of the functions that emitted code relies on reach these functions. -/
def Run.Linked (platform : Platform) (call : Caller) : Prop := ∀ name ∈ helpers, call name = outside platform name

namespace C.Expr

variable {platform : Platform} {call : Caller} {env : Env}

/-- A helper that is called with two arguments. -/
theorem eval_helper {name : String} (known : name ∈ helpers) (linked : Linked platform call)
    (clean : env.lookup? name = none) (left right : Grammar.Expr) :
    (Grammar.Expr.call (.ident name) [left, right]).eval platform call env =
      left.eval platform call env >>= fun a => right.eval platform call env >>= fun b =>
        outside platform name [a, b] := by
  rw [Grammar.Expr.eval, callable, if_pos clean]
  simp only [Grammar.Expr.evalAll, linked name known, bind_assoc, pure_bind]

mutual

/-- Where no variable hides a helper, the value of code is the value of its tree. -/
theorem eval_tree (linked : Linked platform call) (clean : ∀ name ∈ helpers, env.lookup? name = none) :
    ∀ code : Expr, code.tree.eval platform call env = code.eval platform call env
  | .var name => by rw [tree, Grammar.Expr.eval, eval]
  | .int value => by rw [tree, Grammar.Expr.eval, eval]
  | .str body => by rw [tree, Grammar.Expr.eval, eval]
  | .binary op left right => by
    rw [tree, Grammar.Expr.eval, eval, eval_tree linked clean left, eval_tree linked clean right]
  | .compare op left right => by
    rw [tree, Grammar.Expr.compare, Grammar.Expr.eval, eval,
      eval_helper (by decide) linked (clean "strcmp" (by decide)), eval_tree linked clean left,
      eval_tree linked clean right]
    simp only [bind_assoc]
    congr 1
    funext a
    congr 1
    funext b
    cases a <;> cases b <;> rfl
  | .concat left right => by
    rw [tree, eval, eval_helper (by decide) linked (clean "concat_strings" (by decide)),
      eval_tree linked clean left, eval_tree linked clean right]
    congr 1
    funext a
    congr 1
    funext b
    cases a <;> cases b <;> rfl
  | .call function args => by rw [tree, Grammar.Expr.eval, eval, evalAll_trees linked clean args]

theorem evalAll_trees (linked : Linked platform call) (clean : ∀ name ∈ helpers, env.lookup? name = none) :
    ∀ codes : List Expr,
      Grammar.Expr.evalAll platform call env (treesOfAll codes) = evalAll platform call env codes
  | [] => by rw [treesOfAll, Grammar.Expr.evalAll, evalAll]
  | code :: codes => by
    rw [treesOfAll, Grammar.Expr.evalAll, evalAll, eval_tree linked clean code, evalAll_trees linked clean codes]

end

end C.Expr

namespace C.Grammar.Stmt

variable {platform : Platform} {call : Caller} {env : Env}

/-- Output shows a value of the type that its format names. -/
theorem exec_print (linked : Linked platform call) (clean : env.lookup? "printf" = none) (type : ValueType)
    (value : Expr) :
    (Stmt.print type value).exec platform call env =
      tick >>= fun _ => value.eval platform call env >>= fun v =>
        if v.type = type then writeLine v >>= fun _ => pure (.next env) else stop .stuck := by
  obtain ⟨contents, decoded, shown⟩ : ∃ contents, (Expr.str (format type)).eval platform call env =
      pure (.str contents) ∧ shown? contents = some type := by
    cases type <;> exact ⟨_, rfl, rfl⟩
  rw [Stmt.print, exec, C.Expr.eval_helper (by decide) linked clean, decoded]
  simp only [pure_bind, bind_assoc]
  congr 1
  funext _
  congr 1
  funext v
  rw [outside, if_pos rfl, printf, shown]
  by_cases fits : v.type = type
  · simp only [if_pos fits, bind_assoc, pure_bind]
  · simp only [if_neg fits, stop_bind]

theorem execAll_append (xs ys : List Stmt) :
    execAll platform call env (xs ++ ys) =
      execAll platform call env xs >>= fun flow =>
        match flow with
        | .next after => execAll platform call after ys
        | .returned v => pure (.returned v) := by
  induction xs generalizing env with
  | nil =>
    rw [List.nil_append, execAll, pure_bind]
  | cons x xs ih =>
    rw [List.cons_append, execAll, execAll, bind_assoc]
    congr 1
    funext flow
    cases flow with
    | next after => exact ih
    | returned v => rfl

theorem execAll_singleton (s : Stmt) : execAll platform call env [s] = s.exec platform call env := by
  rw [execAll]
  refine (congrArg _ (funext fun flow => ?_)).trans (bind_pure _)
  cases flow with
  | next after => exact execAll.eq_1 platform call after
  | returned v => rfl

end C.Grammar.Stmt

end ImpToC
