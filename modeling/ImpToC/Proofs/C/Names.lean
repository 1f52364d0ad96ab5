import ImpToC.Proofs.C.Reading
import ImpToC.Proofs.Run.Folding

/-!
Names in emitted C. Every name of a variable, a parameter or a function is checked when it is
declared, and a variable is used only after that, so none of them is a keyword. What is called
is not checked: a name that is neither a variable nor a function of the program is passed on.
So a keyword gets into emitted C exactly where the program calls one, and then the text cannot
be read as C.
-/
namespace ImpToC

namespace C

/-- What a name stands for where it is used. -/
inductive Role where
  | declared
  | assigned
  | parameter
  | function
  | value
  | callee
  deriving DecidableEq, Repr

structure Use where
  role : Role
  name : String
  deriving DecidableEq, Repr

mutual

/-- The names that code takes from the program, in order. -/
def Expr.uses : Expr → List Use
  | var name => [⟨.value, name⟩]
  | int _ | str _ => []
  | binary _ left right | compare _ left right | concat left right => left.uses ++ right.uses
  | call function args => ⟨.callee, function⟩ :: Expr.usesOfAll args

def Expr.usesOfAll : List Expr → List Use
  | [] => []
  | e :: es => e.uses ++ Expr.usesOfAll es

end

mutual

/-- A comment uses no name. -/
def Stmt.uses : Stmt → List Use
  | declare _ name none => [⟨.declared, name⟩]
  | declare _ name (some value) => ⟨.declared, name⟩ :: value.uses
  | assign name value => ⟨.assigned, name⟩ :: value.uses
  | print _ value | ret value | eval value => value.uses
  | branch condition consequence alternative =>
    condition.uses ++ Stmt.usesOfAll consequence ++ Stmt.usesOfOption alternative
  | block body => Stmt.usesOfAll body
  | foreign _ => []

def Stmt.usesOfAll : List Stmt → List Use
  | [] => []
  | s :: ss => s.uses ++ Stmt.usesOfAll ss

def Stmt.usesOfOption : Option (List Stmt) → List Use
  | none => []
  | some body => Stmt.usesOfAll body

end

def Function.uses (f : Function) : List Use :=
  ⟨.function, f.name⟩ :: (f.params.map (⟨.parameter, ·⟩) ++ Stmt.usesOfAll f.body)

def Code.uses (c : Code) : List Use := c.functions.flatMap Function.uses ++ Stmt.usesOfAll c.main

theorem Stmt.usesOfAll_append (xs ys : List Stmt) :
    Stmt.usesOfAll (xs ++ ys) = Stmt.usesOfAll xs ++ Stmt.usesOfAll ys := by
  induction xs with
  | nil => rfl
  | cons s ss ih => rw [List.cons_append, usesOfAll, usesOfAll, ih, List.append_assoc]

end C

/-- Names that are used in the C of what spells out `leaves`: all that is called there is
called, and nothing else is a keyword. -/
structure Vetted (leaves : List Leaf) (uses : List C.Use) : Prop where
  free : ∀ use ∈ uses, use.role ≠ .callee → use.name ∉ C.keywords
  callees : ∀ name, ⟨.callee, name⟩ ∈ uses ↔ .callee name ∈ leaves

namespace Vetted

variable {leaves others : List Leaf} {uses rest : List C.Use}

theorem nil : Vetted [] [] := ⟨by simp, by simp⟩

theorem append (first : Vetted leaves uses) (second : Vetted others rest) :
    Vetted (leaves ++ others) (uses ++ rest) := by
  constructor
  · intro use member role
    rcases List.mem_append.mp member with early | late
    · exact first.free use early role
    · exact second.free use late role
  · intro name
    rw [List.mem_append, List.mem_append, first.callees, second.callees]

/-- A name that is not called stands for one that may be declared. -/
theorem name {role : C.Role} {word : String} (other : role ≠ .callee) (free : word ∉ C.keywords)
    (shown : String) :
    Vetted [.name shown] [⟨role, word⟩] := by
  constructor
  · intro use member _
    rw [List.mem_singleton.mp member]
    exact free
  · intro name
    simp [other.symm]

theorem names {role : C.Role} {words : List String} (other : role ≠ .callee)
    (free : ∀ word ∈ words, word ∉ C.keywords) :
    Vetted (words.map .name) (words.map (⟨role, ·⟩)) := by
  induction words with
  | nil => exact nil
  | cons word words ih =>
    obtain ⟨first, later⟩ := List.forall_mem_cons.mp free
    exact (name other first word).append (ih later)

theorem callee (word : String) : Vetted [.callee word, .name word] [⟨.callee, word⟩] := by
  constructor
  · intro use member role
    rw [List.mem_singleton.mp member] at role
    exact absurd rfl role
  · intro name
    simp

/-- Literals are neither named nor called. -/
theorem of_silent (silent : ∀ name, .callee name ∉ leaves) : Vetted leaves [] :=
  ⟨by simp, fun name => by simp [silent name]⟩

end Vetted

namespace Expr

variable {functions : FunctionTable} {scopes : Scopes}

/-- A sum of literals calls nothing. -/
theorem SumsLiterals.callee_notMem {e : Expr} {texts : List String} (sums : e.SumsLiterals texts) (name : String) :
    .callee name ∉ e.leaves := by
  induction sums with
  | literal => simp [leaves]
  | sum _ _ first second => simp [leaves, first, second]

theorem joined_vetted {left right : Expr} {a b : C.Expr} (first : Vetted left.leaves a.uses)
    (second : Vetted right.leaves b.uses) : Vetted (left.leaves ++ right.leaves) (joined left right a b).uses := by
  unfold joined
  cases leftFolded : left.literalBody? with
  | none => exact first.append second
  | some x =>
    cases rightFolded : right.literalBody? with
    | none => exact first.append second
    | some y =>
      -- One literal is left of both, and nothing was called in them.
      obtain ⟨_, leftSum⟩ := sumsLiterals_of_literalBody? leftFolded
      obtain ⟨_, rightSum⟩ := sumsLiterals_of_literalBody? rightFolded
      apply Vetted.of_silent
      intro name
      simp [leftSum.callee_notMem name, rightSum.callee_notMem name]

theorem allLowered_vetted {args : List Expr} {codes : List C.Expr}
    (each : ∀ e ∈ args, ∀ code, e.lower functions scopes = .ok code → Vetted e.leaves code.uses)
    (lowered : List.Forall₂ (fun e code => e.lower functions scopes = .ok code) args codes) :
    Vetted (leavesOfAll args) (C.Expr.usesOfAll codes) := by
  induction lowered with
  | nil => exact .nil
  | cons first _ ih =>
    obtain ⟨head, tail⟩ := List.forall_mem_cons.mp each
    exact (head _ first).append (ih tail)

/-- A variable that is used was declared, and a name that is called is passed on. -/
theorem lowered_vetted (named : scopes.Named) (e : Expr) (code : C.Expr)
    (done : e.lower functions scopes = .ok code) : Vetted e.leaves code.uses := by
  induction e using Expr.induction generalizing code with
  | ident name l =>
    obtain ⟨⟨type, found⟩, rfl⟩ := lower_ident_ok.mp done
    exact .name (by decide) (C.notMem_keywords_of_unreserved (named.lookup? found)) name
  | int value l =>
    obtain ⟨_, rfl⟩ := lower_int_ok.mp done
    exact .of_silent (by simp [leaves])
  | str text l =>
    obtain rfl := lower_str_ok.mp done
    exact .of_silent (by simp [leaves])
  | func params body l => exact absurd done lower_func_ne_ok
  | binary op left right l first second =>
    obtain ⟨a, b, leftDone, rightDone, rest⟩ := lower_binary_ok.mp done
    rcases lowerBinary_ok.mp rest with ⟨_, _, rfl⟩ | ⟨_, _, ⟨_, rfl⟩ | ⟨_, rfl⟩⟩
    · exact (first a leftDone).append (second b rightDone)
    · exact joined_vetted (first a leftDone) (second b rightDone)
    · exact (first a leftDone).append (second b rightDone)
  | call callee args l _ each =>
    obtain ⟨name, m, codes, rfl, _, _, lowered, rfl⟩ := lower_call_ok.mp done
    have passed : Vetted (leavesOfAll args) (C.Expr.usesOfAll codes) := allLowered_vetted each lowered
    exact (Vetted.callee name).append passed

end Expr

namespace Stmt

variable {context : Generate.Context}

theorem declared_vetted {scopes after : Scopes} {name : String} {value : Option Expr} {l : Location} {code : C.Stmt}
    (named : scopes.Named) (done : Generate.declaration context.functions scopes name value l = .ok (code, after)) :
    Vetted (.name name :: Expr.leavesOfOption value) code.uses := by
  cases value with
  | none =>
    obtain ⟨unreserved, _, rfl⟩ := Generate.declaration_none_ok.mp done
    exact .name (by decide) (C.notMem_keywords_of_unreserved unreserved) name
  | some value =>
    obtain ⟨unreserved, _, inner, lowered, _, rfl⟩ := Generate.declaration_some_ok.mp done
    have free := C.notMem_keywords_of_unreserved unreserved
    exact (Vetted.name (by decide) free name).append (Expr.lowered_vetted named value inner lowered)

theorem allLowered_vetted {ss : List Stmt} {codes : List C.Stmt} {scopes after : Scopes} (named : scopes.Named)
    (each : ∀ s ∈ ss, ∀ scopes after code, scopes.Named →
      Generate.statement context scopes s = .ok (code, after) → Vetted s.leaves code.uses)
    (done : Generate.statements context scopes ss = .ok (codes, after)) :
    Vetted (leavesOfAll ss) (C.Stmt.usesOfAll codes) := by
  induction ss generalizing scopes codes with
  | nil =>
    rw [Generate.statements] at done
    cases done
    exact .nil
  | cons s ss ih =>
    obtain ⟨code, middle, others, first, later, rfl⟩ := Generate.statements_cons_ok.mp done
    obtain ⟨head, tail⟩ := List.forall_mem_cons.mp each
    exact (head scopes middle code named first).append (ih (Generate.statement_named first named) tail later)

theorem blockLowered_vetted {body : Block} {codes : List C.Stmt} {scopes : Scopes} (named : scopes.Named)
    (each : ∀ s ∈ body.statements, ∀ scopes after code, scopes.Named →
      Generate.statement context scopes s = .ok (code, after) → Vetted s.leaves code.uses)
    (done : Generate.block context scopes body = .ok codes) :
    Vetted body.leaves (C.Stmt.usesOfAll codes) := by
  obtain ⟨final, inside⟩ := Generate.block_ok.mp done
  obtain ⟨ss, l⟩ := body
  exact allLowered_vetted named.push each inside

/-- A statement uses names that are in scope, those it declares, and what it calls. -/
theorem lowered_vetted (s : Stmt) (scopes after : Scopes) (code : C.Stmt) (named : scopes.Named)
    (done : Generate.statement context scopes s = .ok (code, after)) : Vetted s.leaves code.uses := by
  induction s using Stmt.induction generalizing scopes after code with
  | declare name value l =>
    rw [Generate.statement] at done
    exact declared_vetted named done
  | assign name value l =>
    rw [Generate.statement] at done
    rcases Generate.assignment_ok.mp done with ⟨_, declared⟩ | ⟨bound, rfl, inner, lowered, rfl⟩
    · exact declared_vetted named declared
    · have free := C.notMem_keywords_of_unreserved (named.lookup? bound)
      exact (Vetted.name (by decide) free name).append (Expr.lowered_vetted named value inner lowered)
  | print value l =>
    rw [Generate.statement] at done
    obtain ⟨shown, rfl⟩ := Generate.keeping_ok.mp done
    obtain ⟨inner, lowered, rfl⟩ := Generate.output_ok.mp shown
    exact Expr.lowered_vetted named value inner lowered
  | branch condition consequence alternative l yes no =>
    obtain ⟨rfl, test, codes, others, tested, taken, untaken, rfl⟩ := Generate.branch_ok.mp done
    have first := Expr.lowered_vetted named condition test tested
    have second := blockLowered_vetted named yes taken
    refine (first.append second).append ?_
    rcases Generate.optionalBlock_ok.mp untaken with ⟨rfl, rfl⟩ | ⟨body, lowered, rfl, inside, rfl⟩
    · exact .nil
    · exact blockLowered_vetted named (no body rfl) inside
  | block body each =>
    obtain ⟨rfl, codes, inside, rfl⟩ := Generate.statement_block_ok.mp done
    exact blockLowered_vetted named each inside
  | foreign name l =>
    rw [Generate.statement] at done
    cases done
    exact .of_silent (by simp [leaves])
  | ret value l =>
    rw [Generate.statement] at done
    obtain ⟨returned, rfl⟩ := Generate.keeping_ok.mp done
    cases value with
    | none =>
      cases returned
      exact .nil
    | some value =>
      obtain ⟨_, inner, lowered, rfl⟩ := Generate.returning_some_ok.mp returned
      exact Expr.lowered_vetted named value inner lowered
  | func name params body l =>
    rw [Generate.statement] at done
    cases done
  | expr value l =>
    rw [Generate.statement] at done
    obtain ⟨evaluated, rfl⟩ := Generate.keeping_ok.mp done
    obtain ⟨inner, lowered, rfl⟩ := Generate.bare_ok.mp evaluated
    have vetted := Expr.lowered_vetted named value inner lowered
    cases context.inFunction <;> exact vetted

end Stmt

namespace FunctionDef

theorem lowered_vetted {table : FunctionTable} {d : FunctionDef} {f : C.Function} (free : d.name ∉ C.keywords)
    (done : Generate.function table d = .ok f) : Vetted d.leaves f.uses := by
  obtain ⟨scopes, codes, final, declared, lowered, rfl⟩ := Generate.function_ok.mp done
  obtain ⟨_, each, rfl⟩ := Generate.parameters_ok.mp declared
  have params : ∀ name ∈ d.params, name ∉ C.keywords := fun name member =>
    C.notMem_keywords_of_unreserved (each name member).1
  have named := Scopes.named_empty.parameters fun name member => (each name member).1
  have body := Stmt.allLowered_vetted named (fun s _ => Stmt.lowered_vetted s) lowered
  have ending : C.Stmt.usesOfAll (codes ++ if Generate.endsInReturn d.body.statements then [] else
      [.ret (.int 0)]) = C.Stmt.usesOfAll codes := by
    rw [C.Stmt.usesOfAll_append]
    cases Generate.endsInReturn d.body.statements <;> exact List.append_nil _
  rw [C.Function.uses, ending]
  obtain ⟨name, params, ⟨ss, m⟩, l⟩ := d
  exact (Vetted.name (by decide) free _).append ((Vetted.names (by decide) params).append body)

end FunctionDef

namespace Program

variable {p : Program} {c : C.Code}

theorem allLowered_vetted {table : FunctionTable} {ds : List FunctionDef} {fs : List C.Function}
    (free : ∀ d ∈ ds, d.name ∉ C.keywords)
    (lowered : List.Forall₂ (fun d f => Generate.function table d = .ok f) ds fs) :
    Vetted (ds.flatMap FunctionDef.leaves) (fs.flatMap C.Function.uses) := by
  induction lowered with
  | nil => exact .nil
  | cons first _ ih =>
    obtain ⟨head, tail⟩ := List.forall_mem_cons.mp free
    exact (FunctionDef.lowered_vetted head first).append (ih tail)

/-- The names in the C of a program that is accepted. -/
theorem generate_vetted (done : p.generate = .ok c) : Vetted p.leaves c.uses := by
  obtain ⟨joins, functions, main⟩ := generate_ok.mp done
  obtain ⟨codes, final, lowered, whole⟩ := Generate.mainBody_ok.mp main
  have first := allLowered_vetted (fun d member => name_notMem_keywords joins.unreserved member) functions
  have second := Stmt.allLowered_vetted Scopes.named_empty (fun s _ => Stmt.lowered_vetted s) lowered
  have ending : C.Stmt.usesOfAll c.main = C.Stmt.usesOfAll codes := by
    rw [whole, C.Stmt.usesOfAll_append]
    exact List.append_nil _
  have parted := first.append second
  rw [C.Code.uses, ending]
  exact ⟨parted.free, fun name => (parted.callees name).trans (Stmt.mem_callees_parted name 0 p.statements)⟩

end Program

/-- In emitted C no variable, parameter or function goes by the name of a keyword, and none is
used as a value or assigned to. What is called is what the program calls. So there is no
keyword among the names exactly if the program calls none. This is also when the text behind
the preamble can be read as C, and what it is read as is the tree of the code. -/
theorem keywords_only_called {source text : String} (compiled : compile source = .ok text) :
    ∃ p c, Program.parse source = .ok p ∧ p.generate = .ok c ∧ c.render = text ∧
      (∀ use ∈ c.uses, use.role ≠ .callee → use.name ∉ C.keywords) ∧
      (∀ name, ⟨.callee, name⟩ ∈ c.uses ↔ .callee name ∈ p.leaves) ∧
      ((∀ use ∈ c.uses, use.name ∉ C.keywords) ↔ ∀ name, .callee name ∈ p.leaves → name ∉ C.keywords) ∧
      ∃ rest, text = C.preamble ++ rest ∧
        ∀ items, C.Grammar.Reads rest items ↔
          (∀ name, .callee name ∈ p.leaves → name ∉ C.keywords) ∧ items = c.items := by
  obtain ⟨p, c, parsed, generated, rendered⟩ := compile_eq_ok.mp compiled
  have vetted := Program.generate_vetted generated
  refine ⟨p, c, parsed, generated, rendered, vetted.free, vetted.callees, ⟨?_, ?_⟩, ?_⟩
  · intro free name called
    exact free ⟨.callee, name⟩ ((vetted.callees name).mpr called)
  · rintro free ⟨role, name⟩ member
    by_cases called : role = .callee
    · subst called
      exact free name ((vetted.callees name).mp member)
    · exact vetted.free _ member called
  · obtain ⟨rest, whole, reads⟩ := Program.generate_reads_iff parsed generated
    refine ⟨rest, rendered ▸ whole, fun items => (reads items).trans (and_congr_left fun _ => ?_)⟩
    exact not_keywordCalled_iff

/-- A program with a function, a parameter, a variable and calls, one of them of a function
that is not its own. -/
theorem keywords_only_called_sample :
    ∃ source text p c, source = "func f(a) { b = a + 1; b = b * 2; return b; } print(f(puts(3)));" ∧
      compile source = .ok text ∧ Program.parse source = .ok p ∧ p.generate = .ok c ∧ c.render = text ∧
      c.uses.map C.Use.name = ["f", "a", "b", "a", "b", "b", "b", "f", "puts"] ∧
      ∀ use ∈ c.uses, use.role ≠ .callee → use.name ∉ C.keywords := by
  generalize given : "func f(a) { b = a + 1; b = b * 2; return b; } print(f(puts(3)));" = source
  have accepted : (compile source).isOk = true := by
    subst given
    decide +kernel
  have evaluated : ((Program.parse source).toOption.bind fun p => p.generate.toOption.map fun c =>
      c.uses.map C.Use.name) = some ["f", "a", "b", "a", "b", "b", "b", "f", "puts"] := by
    subst given
    decide +kernel
  cases compiled : compile source with
  | error fault => simp [compiled, Except.isOk, Except.toBool] at accepted
  | ok text =>
    obtain ⟨p, c, parsed, generated, rendered, free, _⟩ := keywords_only_called compiled
    simp only [parsed, generated, Except.toOption, Option.bind_some, Option.map_some, Option.some.injEq] at evaluated
    exact ⟨source, text, p, c, rfl, compiled, parsed, generated, rendered, evaluated, free⟩

/-- A keyword that is called is written as it stands. -/
theorem keyword_called :
    ∃ source text p c, source = "print(while(1));" ∧
      text = C.preamble ++ "\n" ++ C.line 0 r"int main() {" ++ C.line 1 "printf(\"%d\\n\", while(1));" ++
        C.line 1 "return 0;" ++ C.line 0 r"}" ∧
      compile source = .ok text ∧ Program.parse source = .ok p ∧ p.generate = .ok c ∧ c.render = text ∧
      ⟨.callee, "while"⟩ ∈ c.uses ∧ "while" ∈ C.keywords := by
  generalize given : "print(while(1));" = source
  have compiled : compile source = .ok (C.preamble ++ "\n" ++ C.line 0 r"int main() {" ++
      C.line 1 "printf(\"%d\\n\", while(1));" ++ C.line 1 "return 0;" ++ C.line 0 r"}") := by
    subst given
    decide +kernel
  have evaluated : ((Program.parse source).toOption.bind fun p => p.generate.toOption.map C.Code.uses) =
      some [⟨.callee, "while"⟩] := by
    subst given
    decide +kernel
  obtain ⟨p, c, parsed, generated, rendered⟩ := compile_eq_ok.mp compiled
  simp only [parsed, generated, Except.toOption, Option.bind_some, Option.map_some, Option.some.injEq] at evaluated
  exact ⟨source, _, p, c, rfl, rfl, compiled, parsed, generated, rendered, by simp [evaluated], by decide⟩

end ImpToC
