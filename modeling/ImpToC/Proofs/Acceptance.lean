import ImpToC.Proofs.Extraction

/-!
The generator accepts exactly the well-formed programs. For expressions and for
statements each direction is an induction over the tree: what is lowered has a
type, namely the one the generator guesses, and what has a type is lowered.
-/
namespace ImpToC

namespace Scopes

theorem declare?_eq_some {s after : Scopes} {name : String} {type : ValueType} :
    s.declare? name type = some after ↔ name ∉ s.innermost ∧ after = s.bind name type := by
  obtain ⟨frames⟩ := s
  cases frames with
  | nil => simp [declare?, innermost, bind, eq_comm]
  | cons frame outer =>
    have absent : frame.lookup name = none ↔ name ∉ frame.map Prod.fst := by
      rw [List.lookup_eq_none_iff, List.mem_map]
      grind
    simp only [declare?, innermost, bind, List.headD_cons, List.tail_cons]
    cases found : frame.lookup name with
    | none => simp only [absent.mp found, not_false_eq_true, true_and, Option.some.injEq, eq_comm]
    | some known =>
      have present : name ∈ frame.map Prod.fst := by
        by_contra missing
        rw [absent.mpr missing] at found
        cases found
      simp only [reduceCtorEq, present, not_true_eq_false, false_and]

end Scopes

namespace Expr

theorem firstMention?_eq_none {name : String} {es : List Expr}
    (each : ∀ e ∈ es, e.mention? name = none ↔ name ∉ e.names) :
    firstMention? name es = none ↔ name ∉ namesOfAll es := by
  induction es with
  | nil => simp [firstMention?, namesOfAll]
  | cons e es ih =>
    rw [firstMention?, namesOfAll, Option.or_eq_none_iff, List.mem_append, not_or,
      each e (by simp), ih fun e member => each e (by simp [member])]

/-- The search for a use of a name looks at every name that counts. -/
theorem mention?_eq_none {name : String} (e : Expr) : e.mention? name = none ↔ name ∉ e.names := by
  induction e using Expr.induction with
  | ident other l =>
    simp only [mention?, names, List.mem_singleton]
    split
    · next same => simp [same]
    · next different => simpa using Ne.symm different
  | int value l => simp [mention?, names]
  | str text l => simp [mention?, names]
  | binary op left right l first second =>
    rw [mention?, names, Option.or_eq_none_iff, List.mem_append, not_or, first, second]
  | call callee args l first each =>
    rw [mention?, names, Option.or_eq_none_iff, List.mem_append, not_or, first,
      firstMention?_eq_none each]
  | func params body l => simp [mention?, names]

theorem fitsInt_iff (value : Int) :
    fitsInt value = true ↔ -2 ^ 31 ≤ value ∧ value ≤ 2 ^ 31 - 1 := by
  simp [fitsInt]

variable {functions : FunctionTable} {scopes : Scopes}

/-- The number of parameters, by the table of functions. -/
def arityOf (functions : FunctionTable) : Arity := fun name =>
  (functions.get? name).map fun d => d.params.length

theorem haveTypes_of_lowered {args : List Expr} {codes : List C.Expr}
    (each : ∀ e ∈ args, ∀ code, e.lower functions scopes = .ok code →
      e.HasType (arityOf functions) scopes (e.type scopes))
    (lowered : List.Forall₂ (fun e code => e.lower functions scopes = .ok code) args codes) :
    HaveTypes (arityOf functions) scopes args (args.map (type scopes)) := by
  induction lowered with
  | nil => exact .nil
  | @cons e code es codes first rest ih =>
    exact .cons (each e (by simp) code first) (ih fun e member => each e (by simp [member]))

theorem hasType_of_lowered (e : Expr) (code : C.Expr) (lowered : e.lower functions scopes = .ok code) :
    e.HasType (arityOf functions) scopes (e.type scopes) := by
  induction e using Expr.induction generalizing code with
  | ident name l =>
    obtain ⟨⟨type, bound⟩, _⟩ := lower_ident_ok.mp lowered
    exact .ident (by simp [Expr.type, bound])
  | int value l =>
    obtain ⟨fits, _⟩ := lower_int_ok.mp lowered
    obtain ⟨low, high⟩ := (fitsInt_iff value).mp fits
    exact .int low high
  | str text l => exact .str
  | binary op left right l first second =>
    obtain ⟨a, b, leftOk, rightOk, whole⟩ := lower_binary_ok.mp lowered
    have leftTyped := first a leftOk
    have rightTyped := second b rightOk
    rcases lowerBinary_ok.mp whole with ⟨i, j, _⟩ | ⟨i, j, ⟨sum, _⟩ | ⟨compares, _⟩⟩
    · rw [i] at leftTyped
      rw [j] at rightTyped
      cases op with
      | add => simpa [Expr.type, i, j] using HasType.add (l := l) leftTyped rightTyped
      | sub => exact .arithmetic rfl leftTyped rightTyped
      | mul => exact .arithmetic rfl leftTyped rightTyped
      | div => exact .arithmetic rfl leftTyped rightTyped
      | eq => exact .comparison rfl leftTyped rightTyped
      | ne => exact .comparison rfl leftTyped rightTyped
    · subst sum
      rw [i] at leftTyped
      rw [j] at rightTyped
      simpa [Expr.type, i, j] using HasType.add (l := l) leftTyped rightTyped
    · rw [i] at leftTyped
      rw [j] at rightTyped
      cases op with
      | eq => exact .comparison rfl leftTyped rightTyped
      | ne => exact .comparison rfl leftTyped rightTyped
      | _ => cases compares
  | call callee args l first each =>
    obtain ⟨name, m, codes, rfl, unbound, checked, lowered, _⟩ := lower_call_ok.mp lowered
    refine .call unbound (haveTypes_of_lowered each lowered) ?_
    intro count known
    obtain ⟨d, found, rfl⟩ := Option.map_eq_some_iff.mp known
    obtain ⟨many, integers⟩ := checked d found
    rw [List.eq_replicate_iff]
    refine ⟨by rw [List.length_map, many], fun type member => ?_⟩
    obtain ⟨e, given, rfl⟩ := List.mem_map.mp member
    exact integers e given
  | func params body l => exact absurd lowered lower_func_ne_ok

/-- The type that the rules give is the one that the generator guesses. -/
theorem HasType.type_eq {arity : Arity} {e : Expr} {given : ValueType}
    (typed : e.HasType arity scopes given) : e.type scopes = given := by
  induction e using Expr.induction generalizing given with
  | ident name l =>
    cases typed with
    | ident bound => rw [Expr.type, bound]; rfl
  | int value l => cases typed; rfl
  | str text l => cases typed; rfl
  | binary op left right l first second =>
    cases typed with
    | arithmetic only _ _ => cases op <;> first | rfl | cases only
    | add leftTyped rightTyped =>
      cases given <;> simp [Expr.type, first leftTyped, second rightTyped]
    | comparison compares _ _ => cases op <;> first | rfl | cases compares
  | call callee args l first each => cases typed; rfl
  | func params body l => cases typed

theorem lowerBinary_of_typed {arity : Arity} {op : Operator} {left right : Expr} {l : Location}
    {given : ValueType} (typed : (binary op left right l).HasType arity scopes given)
    (a b : C.Expr) : ∃ code, lowerBinary scopes op left right l a b = .ok code := by
  simp only [lowerBinary_ok]
  cases typed with
  | arithmetic only first second => exact ⟨_, .inl ⟨first.type_eq, second.type_eq, rfl⟩⟩
  | add first second =>
    cases given with
    | int => exact ⟨_, .inl ⟨first.type_eq, second.type_eq, rfl⟩⟩
    | str => exact ⟨_, .inr ⟨first.type_eq, second.type_eq, .inl ⟨rfl, rfl⟩⟩⟩
  | @comparison _ _ _ type _ compares first second =>
    cases type with
    | int => exact ⟨_, .inl ⟨first.type_eq, second.type_eq, rfl⟩⟩
    | str => exact ⟨_, .inr ⟨first.type_eq, second.type_eq, .inr ⟨compares, rfl⟩⟩⟩

theorem HaveTypes.types_eq {arity : Arity} {args : List Expr} {types : List ValueType}
    (typed : HaveTypes arity scopes args types) : types = args.map (type scopes) := by
  induction args generalizing types with
  | nil => cases typed; rfl
  | cons e es ih =>
    cases typed with
    | cons first rest => rw [List.map_cons, first.type_eq, ih rest]

theorem lowered_of_haveTypes {args : List Expr} {types : List ValueType}
    (each : ∀ e ∈ args, ∀ given, e.HasType (arityOf functions) scopes given →
      ∃ code, e.lower functions scopes = .ok code)
    (typed : HaveTypes (arityOf functions) scopes args types) :
    ∃ codes, List.Forall₂ (fun e code => e.lower functions scopes = .ok code) args codes := by
  induction args generalizing types with
  | nil => exact ⟨[], .nil⟩
  | cons e es ih =>
    cases typed with
    | cons first rest =>
      obtain ⟨code, head⟩ := each e (by simp) _ first
      obtain ⟨codes, tail⟩ := ih (fun e member => each e (by simp [member])) rest
      exact ⟨code :: codes, .cons head tail⟩

theorem lowered_of_hasType (e : Expr) (given : ValueType)
    (typed : e.HasType (arityOf functions) scopes given) :
    ∃ code, e.lower functions scopes = .ok code := by
  induction e using Expr.induction generalizing given with
  | ident name l =>
    cases typed with
    | ident bound => exact ⟨_, lower_ident_ok.mpr ⟨⟨_, bound⟩, rfl⟩⟩
  | int value l =>
    cases typed with
    | int low high => exact ⟨_, lower_int_ok.mpr ⟨(fitsInt_iff value).mpr ⟨low, high⟩, rfl⟩⟩
  | str text l => exact ⟨_, lower_str_ok.mpr rfl⟩
  | binary op left right l first second =>
    have operands : ∃ a b, left.lower functions scopes = .ok a ∧ right.lower functions scopes = .ok b := by
      cases typed with
      | arithmetic _ leftTyped rightTyped | add leftTyped rightTyped
      | comparison _ leftTyped rightTyped =>
        obtain ⟨a, leftOk⟩ := first _ leftTyped
        obtain ⟨b, rightOk⟩ := second _ rightTyped
        exact ⟨a, b, leftOk, rightOk⟩
    obtain ⟨a, b, leftOk, rightOk⟩ := operands
    obtain ⟨code, whole⟩ := lowerBinary_of_typed typed a b
    exact ⟨code, lower_binary_ok.mpr ⟨a, b, leftOk, rightOk, whole⟩⟩
  | call callee args l first each =>
    cases typed with
    | @call name _ types m _ unbound typed fitting =>
      obtain ⟨codes, lowered⟩ := lowered_of_haveTypes each typed
      refine ⟨_, lower_call_ok.mpr ⟨name, m, codes, rfl, unbound, fun d found => ?_, lowered, rfl⟩⟩
      have known := fitting d.params.length (by rw [arityOf, found]; rfl)
      rw [typed.types_eq, List.eq_replicate_iff, List.length_map] at known
      exact ⟨known.1.symm, fun e member => known.2 _ (List.mem_map_of_mem member)⟩
  | func params body l => cases typed

end Expr

namespace Generate

open ImpToC.Expr

variable {context : Context}

/-- The new variable of a lowered declaration obeys the rules. -/
theorem declares_of_declaration {functions : FunctionTable} {scopes after : Scopes} {name : String}
    {value : Option Expr} {l : Location} {code : C.Stmt}
    (done : declaration functions scopes name value l = .ok (code, after)) :
    Declares (arityOf functions) scopes name value after := by
  cases value with
  | none =>
    obtain ⟨free, declared, _⟩ := declaration_none_ok.mp done
    obtain ⟨fresh, rfl⟩ := Scopes.declare?_eq_some.mp declared
    exact .plain free fresh
  | some value =>
    obtain ⟨free, unused, inner, lowered, declared, _⟩ := declaration_some_ok.mp done
    obtain ⟨fresh, rfl⟩ := Scopes.declare?_eq_some.mp declared
    exact .initialised free fresh (value.mention?_eq_none.mp unused)
      (hasType_of_lowered value inner lowered)

theorem declaration_of_declares {functions : FunctionTable} {scopes after : Scopes} {name : String}
    {value : Option Expr} (l : Location)
    (new : Declares (arityOf functions) scopes name value after) :
    ∃ code, declaration functions scopes name value l = .ok (code, after) := by
  cases new with
  | plain free fresh =>
    exact ⟨_, declaration_none_ok.mpr ⟨free, Scopes.declare?_eq_some.mpr ⟨fresh, rfl⟩, rfl⟩⟩
  | @initialised value type free fresh unused typed =>
    obtain ⟨inner, lowered⟩ := lowered_of_hasType value type typed
    have declared : scopes.declare? name (value.type scopes) = some (scopes.bind name type) := by
      rw [typed.type_eq]
      exact Scopes.declare?_eq_some.mpr ⟨fresh, rfl⟩
    exact ⟨_, declaration_some_ok.mpr
      ⟨free, value.mention?_eq_none.mpr unused, inner, lowered, declared, rfl⟩⟩

/-- A run of statements is typed as soon as each of them is. -/
theorem allWellTyped_of_lowered {ss : List Stmt} {scopes after : Scopes} {codes : List C.Stmt}
    (each : ∀ s ∈ ss, ∀ scopes after code, statement context scopes s = .ok (code, after) →
      s.WellTyped (arityOf context.functions) scopes after)
    (done : statements context scopes ss = .ok (codes, after)) :
    Stmt.AllWellTyped (arityOf context.functions) scopes ss after := by
  induction ss generalizing scopes codes with
  | nil =>
    rw [statements] at done
    cases done
    exact .nil
  | cons s ss ih =>
    obtain ⟨code, middle, rest, first, later, _⟩ := statements_cons_ok.mp done
    exact .cons (each s (by simp) scopes middle code first)
      (ih (fun s member => each s (by simp [member])) later)

theorem blockWellTyped_of_lowered {body : Block} {scopes : Scopes} {code : List C.Stmt}
    (each : ∀ s ∈ body.statements, ∀ scopes after code,
      statement context scopes s = .ok (code, after) →
        s.WellTyped (arityOf context.functions) scopes after)
    (done : block context scopes body = .ok code) :
    body.WellTyped (arityOf context.functions) scopes := by
  obtain ⟨final, inside⟩ := block_ok.mp done
  obtain ⟨body, m⟩ := body
  exact .mk (allWellTyped_of_lowered each inside)

theorem wellTyped_of_lowered (s : Stmt) (scopes after : Scopes) (code : C.Stmt)
    (done : statement context scopes s = .ok (code, after)) :
    s.WellTyped (arityOf context.functions) scopes after := by
  induction s using Stmt.induction generalizing scopes after code with
  | declare name value l =>
    rw [statement] at done
    exact .declare (declares_of_declaration done)
  | assign name value l =>
    rw [statement] at done
    rcases assignment_ok.mp done with ⟨unbound, new⟩ | ⟨bound, rfl, inner, lowered, _⟩
    · exact .first unbound (declares_of_declaration new)
    · exact .assign bound (hasType_of_lowered value inner lowered)
  | print value l =>
    rw [statement, keeping_ok] at done
    obtain ⟨printed, rfl⟩ := done
    obtain ⟨inner, lowered, _⟩ := output_ok.mp printed
    exact .print (hasType_of_lowered value inner lowered)
  | branch condition consequence alternative l taken untaken =>
    obtain ⟨rfl, test, yes, no, tested, first, second, _⟩ := branch_ok.mp done
    have typed := hasType_of_lowered condition test tested
    have yesTyped := blockWellTyped_of_lowered taken first
    rcases optionalBlock_ok.mp second with ⟨rfl, _⟩ | ⟨inner, lowered, rfl, done, _⟩
    · exact .branch typed yesTyped
    · exact .choice typed yesTyped (blockWellTyped_of_lowered (untaken inner rfl) done)
  | block body each =>
    obtain ⟨rfl, inner, done, _⟩ := statement_block_ok.mp done
    exact .block (blockWellTyped_of_lowered each done)
  | foreign name l =>
    rw [statement] at done
    cases done
    exact .foreign
  | ret value l =>
    rw [statement, keeping_ok] at done
    obtain ⟨returned, rfl⟩ := done
    cases value with
    | none => exact .leave
    | some value =>
      obtain ⟨integer, inner, lowered, _⟩ := returning_some_ok.mp returned
      have typed := hasType_of_lowered value inner lowered
      rw [integer] at typed
      exact .ret typed
  | func name params body l =>
    rw [statement] at done
    cases done
  | expr value l =>
    rw [statement, keeping_ok] at done
    obtain ⟨evaluated, rfl⟩ := done
    obtain ⟨inner, lowered, _⟩ := bare_ok.mp evaluated
    exact .expr (hasType_of_lowered value inner lowered)

/-- The generator declares no reserved name. -/
theorem statement_named {s : Stmt} {scopes after : Scopes} {code : C.Stmt}
    (done : statement context scopes s = .ok (code, after)) (named : scopes.Named) : after.Named :=
  (wellTyped_of_lowered s scopes after code done).named named

theorem lowered_of_allWellTyped {ss : List Stmt} {scopes after : Scopes}
    (each : ∀ s ∈ ss, ∀ scopes after, s.WellTyped (arityOf context.functions) scopes after →
      ∃ code, statement context scopes s = .ok (code, after))
    (typed : Stmt.AllWellTyped (arityOf context.functions) scopes ss after) :
    ∃ codes, statements context scopes ss = .ok (codes, after) := by
  induction ss generalizing scopes with
  | nil =>
    cases typed
    exact ⟨[], rfl⟩
  | cons s ss ih =>
    cases typed with
    | cons head rest =>
      obtain ⟨code, first⟩ := each s (by simp) _ _ head
      obtain ⟨codes, later⟩ := ih (fun s member => each s (by simp [member])) rest
      exact ⟨code :: codes, statements_cons_ok.mpr ⟨code, _, codes, first, later, rfl⟩⟩

theorem lowered_of_blockWellTyped {body : Block} {scopes : Scopes}
    (each : ∀ s ∈ body.statements, ∀ scopes after,
      s.WellTyped (arityOf context.functions) scopes after →
        ∃ code, statement context scopes s = .ok (code, after))
    (typed : body.WellTyped (arityOf context.functions) scopes) :
    ∃ code, block context scopes body = .ok code := by
  cases typed with
  | mk inside =>
    obtain ⟨codes, done⟩ := lowered_of_allWellTyped each inside
    exact ⟨codes, block_ok.mpr ⟨_, done⟩⟩

theorem lowered_of_wellTyped (s : Stmt) (scopes after : Scopes)
    (typed : s.WellTyped (arityOf context.functions) scopes after) :
    ∃ code, statement context scopes s = .ok (code, after) := by
  induction s using Stmt.induction generalizing scopes after with
  | declare name value l =>
    cases typed with
    | declare new =>
      rw [statement]
      exact declaration_of_declares l new
  | assign name value l =>
    rw [statement]
    cases typed with
    | first unbound new =>
      obtain ⟨code, done⟩ := declaration_of_declares l new
      exact ⟨code, assignment_ok.mpr (.inl ⟨unbound, done⟩)⟩
    | assign bound typed =>
      obtain ⟨inner, lowered⟩ := lowered_of_hasType value _ typed
      exact ⟨_, assignment_ok.mpr (.inr ⟨by rw [typed.type_eq, bound], rfl, inner, lowered, rfl⟩)⟩
  | print value l =>
    cases typed with
    | print typed =>
      obtain ⟨inner, lowered⟩ := lowered_of_hasType value _ typed
      rw [statement]
      exact ⟨_, keeping_ok.mpr ⟨output_ok.mpr ⟨inner, lowered, rfl⟩, rfl⟩⟩
  | branch condition consequence alternative l taken untaken =>
    cases typed with
    | branch typed inside =>
      obtain ⟨test, tested⟩ := lowered_of_hasType condition _ typed
      obtain ⟨yes, first⟩ := lowered_of_blockWellTyped taken inside
      exact ⟨_, branch_ok.mpr ⟨rfl, test, yes, none, tested, first,
        optionalBlock_ok.mpr (.inl ⟨rfl, rfl⟩), rfl⟩⟩
    | choice typed inside outside =>
      obtain ⟨test, tested⟩ := lowered_of_hasType condition _ typed
      obtain ⟨yes, first⟩ := lowered_of_blockWellTyped taken inside
      obtain ⟨no, second⟩ := lowered_of_blockWellTyped (untaken _ rfl) outside
      exact ⟨_, branch_ok.mpr ⟨rfl, test, yes, some no, tested, first,
        optionalBlock_ok.mpr (.inr ⟨_, no, rfl, second, rfl⟩), rfl⟩⟩
  | block body each =>
    cases typed with
    | block inside =>
      obtain ⟨inner, done⟩ := lowered_of_blockWellTyped each inside
      exact ⟨_, statement_block_ok.mpr ⟨rfl, inner, done, rfl⟩⟩
  | foreign name l =>
    cases typed
    exact ⟨_, by rw [statement]⟩
  | ret value l =>
    rw [statement]
    cases typed with
    | leave => exact ⟨_, keeping_ok.mpr ⟨rfl, rfl⟩⟩
    | ret typed =>
      obtain ⟨inner, lowered⟩ := lowered_of_hasType _ _ typed
      exact ⟨_, keeping_ok.mpr ⟨returning_some_ok.mpr ⟨typed.type_eq, inner, lowered, rfl⟩, rfl⟩⟩
  | func name params body l => cases typed
  | expr value l =>
    cases typed with
    | expr typed =>
      obtain ⟨inner, lowered⟩ := lowered_of_hasType value _ typed
      rw [statement]
      exact ⟨_, keeping_ok.mpr ⟨bare_ok.mpr ⟨inner, lowered, rfl⟩, rfl⟩⟩

/-- A body is lowered exactly when it is typed, whatever body it is. -/
theorem statements_accepts_iff (context : Context) {ss : List Stmt} {scopes after : Scopes} :
    (∃ codes, statements context scopes ss = .ok (codes, after)) ↔
      Stmt.AllWellTyped (arityOf context.functions) scopes ss after :=
  ⟨fun ⟨_, done⟩ => allWellTyped_of_lowered (fun s _ => wellTyped_of_lowered s) done,
    lowered_of_allWellTyped fun s _ => lowered_of_wellTyped s⟩

theorem parameters_ok {names : List String} {scopes after : Scopes} {l : Location} :
    parameters scopes l names = .ok after ↔
      names.Nodup ∧ (∀ name ∈ names, C.isReserved name = false ∧ name ∉ scopes.innermost) ∧
        after = names.foldl (fun scopes name => scopes.bind name .int) scopes := by
  induction names generalizing scopes with
  | nil =>
    simp only [parameters, Except.ok.injEq, List.nodup_nil, List.not_mem_nil, false_implies,
      implies_true, List.foldl_nil, true_and]
    exact eq_comm
  | cons name names ih =>
    rw [parameters]
    cases declared : declare scopes name .int l with
    | error error =>
      simp only [reduceCtorEq, false_iff]
      rintro ⟨_, each, _⟩
      have ⟨free, fresh⟩ := each name (by simp)
      rw [declare_ok.mpr ⟨free, Scopes.declare?_eq_some.mpr ⟨fresh, rfl⟩⟩] at declared
      cases declared
    | ok middle =>
      obtain ⟨free, added⟩ := declare_ok.mp declared
      obtain ⟨fresh, rfl⟩ := Scopes.declare?_eq_some.mp added
      simp only [ih, List.nodup_cons, List.forall_mem_cons, List.foldl_cons, free, fresh,
        not_false_eq_true, true_and]
      have inner : ∀ other, other ∉ (scopes.bind name .int).innermost ↔
          other ≠ name ∧ other ∉ scopes.innermost := by
        intro other
        simp [Scopes.bind, Scopes.innermost]
      simp only [inner]
      grind

/-- A function is lowered exactly when it is well formed. -/
theorem function_accepts_iff {table : FunctionTable} {d : FunctionDef} :
    (∃ f, function table d = .ok f) ↔ d.WellFormed (arityOf table) := by
  constructor
  · rintro ⟨f, done⟩
    obtain ⟨scopes, codes, final, declared, lowered, _⟩ := function_ok.mp done
    obtain ⟨distinct, each, rfl⟩ := parameters_ok.mp declared
    exact ⟨distinct, fun name member => (each name member).1,
      final, (statements_accepts_iff _).mp ⟨codes, lowered⟩⟩
  · rintro ⟨distinct, unreserved, final, typed⟩
    obtain ⟨codes, lowered⟩ := (statements_accepts_iff ⟨table, true⟩).mpr typed
    refine ⟨_, function_ok.mpr ⟨_, codes, final, parameters_ok.mpr ⟨distinct, ?_, rfl⟩, lowered, rfl⟩⟩
    exact fun name member => ⟨unreserved name member, by simp [Scopes.innermost, Scopes.push]⟩

end Generate

namespace Program

theorem arityOf_table (p : Program) : Expr.arityOf p.table = p.arity := by
  funext name
  simp only [Expr.arityOf, arity, FunctionTable.get?_eq_find?, table, beq_eq_decide]

theorem functions_accept_iff (p : Program) :
    (∃ fs, List.Forall₂ (fun d f => Generate.function p.table d = .ok f) p.definitions fs) ↔
      ∀ d ∈ p.definitions, d.WellFormed p.arity := by
  rw [← arityOf_table]
  generalize p.definitions = ds
  simp only [← Generate.function_accepts_iff]
  induction ds with
  | nil => simp
  | cons d ds ih =>
    rw [List.forall_mem_cons, ← ih]
    constructor
    · rintro ⟨fs, all⟩
      cases all with
      | cons first rest => exact ⟨⟨_, first⟩, _, rest⟩
    · rintro ⟨⟨f, first⟩, fs, rest⟩
      exact ⟨f :: fs, .cons first rest⟩

theorem main_accepts_iff (p : Program) :
    (∃ body, Generate.mainBody p.table p.mainStatements = .ok body) ↔
      ∃ after, Stmt.AllWellTyped p.arity Scopes.empty.push p.mainStatements after := by
  rw [← arityOf_table]
  constructor
  · rintro ⟨body, done⟩
    obtain ⟨codes, final, lowered, _⟩ := Generate.mainBody_ok.mp done
    exact ⟨final, (Generate.statements_accepts_iff _).mp ⟨codes, lowered⟩⟩
  · rintro ⟨final, typed⟩
    obtain ⟨codes, lowered⟩ := (Generate.statements_accepts_iff ⟨p.table, false⟩).mpr typed
    exact ⟨_, Generate.mainBody_ok.mpr ⟨codes, final, lowered, rfl⟩⟩

theorem extractable_iff (p : Program) :
    Generate.Extractable .empty 0 p.statements ↔
      (p.definitions.map FunctionDef.name).Nodup ∧
        ∀ name params body l, .func name params body l ∈ p.statements → C.isReserved name = false :=
  ⟨fun ⟨distinct, _, unreserved⟩ => ⟨distinct, unreserved⟩,
    fun ⟨distinct, unreserved⟩ => ⟨distinct, fun _ _ => by simp [FunctionTable.names, FunctionTable.empty],
      unreserved⟩⟩

end Program

/-- The generator gives text exactly for the well-formed programs, whatever it
remembers of earlier ones. -/
theorem Generator.run_accepts_iff_wellFormed (g : Generator) (p : Program) :
    (∃ text, (g.run p).1 = .ok text) ↔ p.WellFormed := by
  have accepted : (∃ text, (g.run p).1 = .ok text) ↔ ∃ c, p.generate = .ok c := by
    unfold Generator.run
    cases p.generate <;> simp
  rw [accepted]
  constructor
  · rintro ⟨c, done⟩
    obtain ⟨joins, functions, main⟩ := Program.generate_ok.mp done
    obtain ⟨distinct, unreserved⟩ := p.extractable_iff.mp joins
    exact ⟨distinct, unreserved, p.functions_accept_iff.mp ⟨_, functions⟩,
      p.main_accepts_iff.mp ⟨_, main⟩⟩
  · rintro ⟨distinct, unreserved, functions, main⟩
    obtain ⟨fs, lowered⟩ := p.functions_accept_iff.mpr functions
    obtain ⟨body, done⟩ := p.main_accepts_iff.mpr main
    exact ⟨⟨fs, body⟩, Program.generate_ok.mpr
      ⟨p.extractable_iff.mpr ⟨distinct, unreserved⟩, lowered, done⟩⟩

end ImpToC
