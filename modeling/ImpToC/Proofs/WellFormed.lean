import Mathlib.Algebra.Ring.Int.Defs
import ImpToC.C.Reserved
import ImpToC.Proofs.Parts
import ImpToC.Scopes

/-!
Well-formed programs, as a judgment. It types expressions by rules, passes the
scopes from one statement to the next, and says of a whole program which names
its functions may have. Nothing here computes C or finds the first fault; that
the generator accepts exactly these programs is proved elsewhere.
-/
namespace ImpToC

namespace Scopes

/-- The names declared in the innermost frame. -/
def innermost (s : Scopes) : List String := (s.frames.headD []).map Prod.fst

/-- The scopes with one more variable in the innermost frame. -/
def bind (s : Scopes) (name : String) (type : ValueType) : Scopes :=
  ⟨((name, type) :: s.frames.headD []) :: s.frames.tail⟩

end Scopes

/-- How many parameters each function of the program has. -/
abbrev Arity := String → Option Nat

namespace Expr

/-- Arithmetic that is defined on integers only. -/
def onIntegers : Operator → Bool
  | .sub | .mul | .div => true
  | _ => false

mutual

/-- Every name that stands in an expression, as a value or as a callee. What
stands inside a function literal does not count: such a literal has no type. -/
def names : Expr → List String
  | ident name _ => [name]
  | binary _ left right _ => left.names ++ right.names
  | call callee args _ => callee.names ++ namesOfAll args
  | int _ _ | str _ _ | func _ _ _ => []

def namesOfAll : List Expr → List String
  | [] => []
  | e :: es => e.names ++ namesOfAll es

end

theorem mem_namesOfAll {name : String} {es : List Expr} :
    name ∈ namesOfAll es ↔ ∃ e ∈ es, name ∈ e.names := by
  induction es with
  | nil => simp [namesOfAll]
  | cons e es ih => simp [namesOfAll, ih]

mutual

/-- An expression that stands for a value, and the type of the value. A call is
an integer; only the arguments of the program's own functions are looked at. -/
inductive HasType (arity : Arity) (scopes : Scopes) : Expr → ValueType → Prop where
  | int {value : Int} {l : Location} (low : -2 ^ 31 ≤ value) (high : value ≤ 2 ^ 31 - 1) :
      HasType arity scopes (.int value l) .int
  | str {text : String} {l : Location} : HasType arity scopes (.str text l) .str
  | ident {name : String} {type : ValueType} {l : Location}
      (bound : scopes.lookup? name = some type) : HasType arity scopes (.ident name l) type
  | arithmetic {op : Operator} {left right : Expr} {l : Location} (only : onIntegers op = true)
      (first : HasType arity scopes left .int) (second : HasType arity scopes right .int) :
      HasType arity scopes (.binary op left right l) .int
  | add {left right : Expr} {type : ValueType} {l : Location}
      (first : HasType arity scopes left type) (second : HasType arity scopes right type) :
      HasType arity scopes (.binary .add left right l) type
  | comparison {op : Operator} {left right : Expr} {type : ValueType} {l : Location}
      (compares : op.isComparison = true)
      (first : HasType arity scopes left type) (second : HasType arity scopes right type) :
      HasType arity scopes (.binary op left right l) .int
  | call {name : String} {args : List Expr} {types : List ValueType} {m l : Location}
      (unbound : scopes.lookup? name = none) (typed : HaveTypes arity scopes args types)
      (fitting : ∀ count, arity name = some count → types = List.replicate count .int) :
      HasType arity scopes (.call (.ident name m) args l) .int

inductive HaveTypes (arity : Arity) (scopes : Scopes) : List Expr → List ValueType → Prop where
  | nil : HaveTypes arity scopes [] []
  | cons {e : Expr} {es : List Expr} {type : ValueType} {types : List ValueType}
      (first : HasType arity scopes e type) (rest : HaveTypes arity scopes es types) :
      HaveTypes arity scopes (e :: es) (type :: types)

end

end Expr

/-- A new variable with its initial value, if it has one: the scopes after it. -/
inductive Declares (arity : Arity) (scopes : Scopes) (name : String) :
    Option Expr → Scopes → Prop where
  | plain (free : C.isReserved name = false) (fresh : name ∉ scopes.innermost) :
      Declares arity scopes name none (scopes.bind name .int)
  | initialised {value : Expr} {type : ValueType} (free : C.isReserved name = false)
      (fresh : name ∉ scopes.innermost) (unused : name ∉ value.names)
      (typed : value.HasType arity scopes type) :
      Declares arity scopes name (some value) (scopes.bind name type)

mutual

/-- A statement that may stand in these scopes, and the scopes after it. There
is no rule for a function, which may stand at the top level only. -/
inductive Stmt.WellTyped (arity : Arity) : Scopes → Stmt → Scopes → Prop where
  | declare {scopes after : Scopes} {name : String} {value : Option Expr} {l : Location}
      (new : Declares arity scopes name value after) :
      Stmt.WellTyped arity scopes (.declare name value l) after
  | first {scopes after : Scopes} {name : String} {value : Expr} {l : Location}
      (unbound : scopes.lookup? name = none) (new : Declares arity scopes name (some value) after) :
      Stmt.WellTyped arity scopes (.assign name value l) after
  | assign {scopes : Scopes} {name : String} {value : Expr} {type : ValueType} {l : Location}
      (bound : scopes.lookup? name = some type) (typed : value.HasType arity scopes type) :
      Stmt.WellTyped arity scopes (.assign name value l) scopes
  | print {scopes : Scopes} {value : Expr} {type : ValueType} {l : Location}
      (typed : value.HasType arity scopes type) : Stmt.WellTyped arity scopes (.print value l) scopes
  | branch {scopes : Scopes} {condition : Expr} {type : ValueType} {consequence : Block}
      {l : Location} (typed : condition.HasType arity scopes type)
      (taken : Block.WellTyped arity scopes consequence) :
      Stmt.WellTyped arity scopes (.branch condition consequence none l) scopes
  | choice {scopes : Scopes} {condition : Expr} {type : ValueType} {consequence alternative : Block}
      {l : Location} (typed : condition.HasType arity scopes type)
      (taken : Block.WellTyped arity scopes consequence)
      (untaken : Block.WellTyped arity scopes alternative) :
      Stmt.WellTyped arity scopes (.branch condition consequence (some alternative) l) scopes
  | block {scopes : Scopes} {body : Block} (inside : Block.WellTyped arity scopes body) :
      Stmt.WellTyped arity scopes (.block body) scopes
  | foreign {scopes : Scopes} {name : String} {l : Location} :
      Stmt.WellTyped arity scopes (.foreign name l) scopes
  | leave {scopes : Scopes} {l : Location} : Stmt.WellTyped arity scopes (.ret none l) scopes
  | ret {scopes : Scopes} {value : Expr} {l : Location} (typed : value.HasType arity scopes .int) :
      Stmt.WellTyped arity scopes (.ret (some value) l) scopes
  | expr {scopes : Scopes} {value : Expr} {type : ValueType} {l : Location}
      (typed : value.HasType arity scopes type) : Stmt.WellTyped arity scopes (.expr value l) scopes

/-- The statements of a block are typed in a frame of their own. -/
inductive Block.WellTyped (arity : Arity) : Scopes → Block → Prop where
  | mk {scopes after : Scopes} {body : List Stmt} {l : Location}
      (inside : Stmt.AllWellTyped arity scopes.push body after) :
      Block.WellTyped arity scopes (.mk body l)

/-- Statements one after the other. -/
inductive Stmt.AllWellTyped (arity : Arity) : Scopes → List Stmt → Scopes → Prop where
  | nil {scopes : Scopes} : Stmt.AllWellTyped arity scopes [] scopes
  | cons {scopes middle after : Scopes} {s : Stmt} {ss : List Stmt}
      (head : Stmt.WellTyped arity scopes s middle)
      (rest : Stmt.AllWellTyped arity middle ss after) :
      Stmt.AllWellTyped arity scopes (s :: ss) after

end

namespace Scopes

variable {scopes : Scopes}

/-- No variable goes by a reserved name. -/
def Named (scopes : Scopes) : Prop :=
  ∀ frame ∈ scopes.frames, ∀ entry ∈ frame, C.isReserved entry.1 = false

theorem named_empty : empty.push.Named := by
  intro frame member entry inside
  rw [push, empty, List.mem_singleton] at member
  subst member
  cases inside

theorem Named.push (named : scopes.Named) : scopes.push.Named := by
  intro frame member
  rcases List.mem_cons.mp member with rfl | outer
  · simp
  · exact named frame outer

theorem Named.bind (named : scopes.Named) {name : String} (free : C.isReserved name = false)
    (type : ValueType) : (scopes.bind name type).Named := by
  obtain ⟨frames⟩ := scopes
  have inner : ∀ entry ∈ frames.headD [], C.isReserved entry.1 = false := by
    cases frames with
    | nil => simp
    | cons frame outer => exact named frame (by simp)
  intro frame member entry inside
  rcases List.mem_cons.mp member with rfl | outer
  · rcases List.mem_cons.mp inside with rfl | old
    · exact free
    · exact inner entry old
  · exact named frame (List.mem_of_mem_tail outer) entry inside

theorem Named.lookup? (named : scopes.Named) {name : String} {type : ValueType}
    (found : scopes.lookup? name = some type) : C.isReserved name = false := by
  obtain ⟨frame, member, inside⟩ := List.exists_of_findSome?_eq_some found
  obtain ⟨before, after, parted, _⟩ := List.lookup_eq_some_iff.mp inside
  exact named frame member (name, type) (by simp [parted])

theorem Named.parameters {names : List String} (named : scopes.Named)
    (free : ∀ name ∈ names, C.isReserved name = false) :
    (names.foldl (fun scopes name => scopes.bind name .int) scopes).Named := by
  induction names generalizing scopes with
  | nil => exact named
  | cons name names ih =>
    obtain ⟨first, others⟩ := List.forall_mem_cons.mp free
    exact ih (named.bind first _) others

end Scopes

/-- What is declared is not reserved. -/
theorem Declares.named {arity : Arity} {scopes after : Scopes} {name : String} {value : Option Expr}
    (new : Declares arity scopes name value after) (named : scopes.Named) : after.Named := by
  cases new with
  | plain free => exact named.bind free _
  | initialised free => exact named.bind free _

/-- Statements keep reserved names out of the scopes. -/
theorem Stmt.WellTyped.named {arity : Arity} {scopes after : Scopes} {s : Stmt}
    (typed : s.WellTyped arity scopes after) (named : scopes.Named) : after.Named := by
  cases typed with
  | declare new => exact new.named named
  | first _ new => exact new.named named
  | _ => exact named

/-- A function whose parameters are distinct and may be declared, and whose body
is typed with them as integers. -/
structure FunctionDef.WellFormed (arity : Arity) (d : FunctionDef) : Prop where
  distinct : d.params.Nodup
  unreserved : ∀ name ∈ d.params, C.isReserved name = false
  typed : ∃ after, Stmt.AllWellTyped arity
    (d.params.foldl (fun scopes name => scopes.bind name .int) Scopes.empty.push) d.body.statements after

namespace Program

def arity (p : Program) : Arity := fun name =>
  (p.definitions.find? fun d => d.name = name).map fun d => d.params.length

structure WellFormed (p : Program) : Prop where
  distinct : (p.definitions.map FunctionDef.name).Nodup
  unreserved : ∀ name params body l, .func name params body l ∈ p.statements →
    C.isReserved name = false
  functions : ∀ d ∈ p.definitions, d.WellFormed p.arity
  main : ∃ after, Stmt.AllWellTyped p.arity Scopes.empty.push p.mainStatements after

end Program

end ImpToC
