import ImpToC.Proofs.Emission.ScopeDiscipline

/-!
How a program is parted. Its statements are gone through once: each function joins a table
under its own name or a numbered one, and all else is handed on to the main body. What came
before decides whether a function is refused, so the first that is refused ends it, and how
functions and other statements are mixed makes no difference. Numbered names are no words,
so in a program that was read only functions that are declared by one name can clash.
-/
namespace ImpToC

namespace Stmt

/-- A function at the top level that has no name. -/
def isAnonymous : Stmt → Bool
  | expr (.func _ _ _) _ => true
  | _ => false

/-- The function that a statement defines, with `index` functions without a name before it. -/
def definition? (index : Nat) : Stmt → Option FunctionDef
  | func name params body l => some ⟨name, params, body, l⟩
  | expr (.func params body l) _ => some ⟨Generate.anonymousName index, params, body, l⟩
  | _ => none

/-- How many functions without a name are among statements. -/
def anonymous (ss : List Stmt) : Nat := ss.countP isAnonymous

theorem anonymous_append (xs ys : List Stmt) : anonymous (xs ++ ys) = anonymous xs + anonymous ys :=
  List.countP_append

theorem definitions_cons (index : Nat) (s : Stmt) (ss : List Stmt) :
    definitions index (s :: ss) = (s.definition? index).toList ++ definitions (index + anonymous [s]) ss := by
  cases s with
  | expr value l => cases value <;> rfl
  | _ => rfl

theorem definitions_append (index : Nat) (xs ys : List Stmt) :
    definitions index (xs ++ ys) = definitions index xs ++ definitions (index + anonymous xs) ys := by
  induction xs generalizing index with
  | nil => rfl
  | cons s ss ih =>
    have count : anonymous (s :: ss) = anonymous [s] + anonymous ss := anonymous_append [s] ss
    rw [List.cons_append, definitions_cons, definitions_cons, ih, count, List.append_assoc, Nat.add_assoc]

theorem length_definition? (index : Nat) (s : Stmt) :
    (s.definition? index).toList.length = [s].countP isDefinition := by
  cases s with
  | expr value l => cases value <;> rfl
  | _ => rfl

theorem length_definitions (index : Nat) (ss : List Stmt) :
    (definitions index ss).length = ss.countP isDefinition := by
  induction ss generalizing index with
  | nil => rfl
  | cons s ss ih =>
    rw [definitions_cons, List.length_append, length_definition?, ih, ← List.countP_append]
    rfl

/-- The function of a statement comes after those of the statements in front of it, and only
the functions without a name among these count for its own name. -/
theorem definitions_getElem? {before after : List Stmt} {s : Stmt} (definition : s.isDefinition = true) :
    (definitions 0 (before ++ s :: after))[before.countP isDefinition]? = s.definition? (anonymous before) := by
  rw [definitions_append, Nat.zero_add, definitions_cons, ← length_definitions 0 before,
    List.getElem?_append_right (Nat.le_refl _), Nat.sub_self]
  cases s with
  | func name params body l => rfl
  | expr value m =>
    cases value with
    | func params body l => rfl
    | _ => cases definition
  | _ => cases definition

/-- A name that is taken was given in the text, or to one of the functions without a name
so far. -/
theorem name_of_mem_definitions {index : Nat} {ss : List Stmt} {name : String}
    (taken : name ∈ (definitions index ss).map FunctionDef.name) :
    (∃ params body l, .func name params body l ∈ ss) ∨
      ∃ i < index + anonymous ss, name = Generate.anonymousName i := by
  induction ss generalizing index with
  | nil => cases taken
  | cons s ss ih =>
    have count : anonymous (s :: ss) = anonymous [s] + anonymous ss := anonymous_append [s] ss
    rw [definitions_cons, List.map_append, List.mem_append] at taken
    rcases taken with first | later
    · cases s with
      | func other params body l =>
        rw [definition?, Option.toList, List.map_singleton, List.mem_singleton] at first
        subst first
        exact .inl ⟨params, body, l, .head _⟩
      | expr value m =>
        cases value with
        | func params body l =>
          rw [definition?, Option.toList, List.map_singleton, List.mem_singleton] at first
          refine .inr ⟨index, ?_, first⟩
          rw [count]
          change index < index + (1 + anonymous ss)
          omega
        | _ => cases first
      | _ => cases first
    · rcases ih later with ⟨params, body, l, member⟩ | ⟨i, small, same⟩
      · exact .inl ⟨params, body, l, .tail _ member⟩
      · exact .inr ⟨i, by omega, same⟩

end Stmt

namespace Generate

/-- What one statement does to the table. -/
def join (table : FunctionTable) (index : Nat) : Stmt → Except GenError FunctionTable
  | .func name params body l =>
    if C.isReserved name then .error ⟨.reservedName name, l⟩ else register table ⟨name, params, body, l⟩
  | .expr (.func params body l) _ => register table ⟨anonymousName index, params, body, l⟩
  | _ => .ok table

/-- What is parted so far, with one statement in front: a function is in the table already. -/
def ahead (s : Stmt) (parts : FunctionTable × List Stmt) : FunctionTable × List Stmt :=
  (parts.1, if s.isDefinition then parts.2 else s :: parts.2)

theorem extract_cons (table : FunctionTable) (index : Nat) (s : Stmt) (ss : List Stmt) :
    extract table index (s :: ss) = join table index s >>= fun joined =>
      (extract joined (index + Stmt.anonymous [s]) ss).map (ahead s) := by
  have whole : s.isDefinition = true → ∀ parts : Except GenError (FunctionTable × List Stmt),
      parts.map (ahead s) = parts := by
    intro definition parts
    cases parts with
    | error error => rfl
    | ok parts => simp [Except.map, ahead, definition]
  cases s with
  | func name params body l =>
    rw [extract, join]
    simp only [whole rfl]
    split <;> rfl
  | expr value m =>
    cases value with
    | func params body l =>
      rw [extract]
      simp only [whole rfl]
      rfl
    | _ => rfl
  | _ => rfl

theorem register_eq (table : FunctionTable) (d : FunctionDef) :
    register table d =
      if d.name ∈ table.names then .error ⟨.duplicateFunction d.name, d.location⟩
      else .ok ⟨table.definitions ++ [d]⟩ := by
  by_cases taken : d.name ∈ table.names
  · rw [if_pos taken]
    cases found : table.insert d with
    | ok after => exact absurd taken (FunctionTable.insert_ok.mp found).1
    | error given =>
      have same : given = d := by
        unfold FunctionTable.insert at found
        split at found
        · cases found
          rfl
        · cases found
      rw [register, found, same]
  · rw [if_neg taken, register_ok]
    exact ⟨taken, rfl⟩

end Generate

/-- Why a statement at the top level is refused after others: it is a function whose name may
not be declared, or one whose name another has, given to it or not. -/
inductive Stmt.Refused (before : List Stmt) : Stmt → GenError → Prop where
  | reserved {name : String} {params : List String} {body : Block} {l : Location}
      (listed : C.isReserved name = true) :
      Refused before (.func name params body l) ⟨.reservedName name, l⟩
  | named {name : String} {params : List String} {body : Block} {l : Location}
      (free : C.isReserved name = false)
      (taken : name ∈ (Stmt.definitions 0 before).map FunctionDef.name) :
      Refused before (.func name params body l) ⟨.duplicateFunction name, l⟩
  | numbered {params : List String} {body : Block} {l m : Location}
      (taken : Generate.anonymousName (Stmt.anonymous before) ∈
        (Stmt.definitions 0 before).map FunctionDef.name) :
      Refused before (.expr (.func params body l) m)
        ⟨.duplicateFunction (Generate.anonymousName (Stmt.anonymous before)), l⟩

/-- No statement is refused after those in front of it. -/
def Stmt.Unrefused (ss : List Stmt) : Prop :=
  ∀ before s after error, ss = before ++ s :: after → ¬ s.Refused before error

theorem Stmt.unrefused_nil : Stmt.Unrefused [] := by
  intro before s after error split
  simp at split

theorem Stmt.Unrefused.concat {ss : List Stmt} {s : Stmt} (earlier : Stmt.Unrefused ss)
    (last : ∀ error, ¬ s.Refused ss error) : Stmt.Unrefused (ss ++ [s]) := by
  intro before t after error split
  rcases after.eq_nil_or_concat with rfl | ⟨rest, u, rfl⟩
  · obtain ⟨rfl, same⟩ := List.append_inj' split rfl
    cases same
    exact last error
  · rw [List.concat_eq_append, ← List.cons_append, ← List.append_assoc] at split
    exact earlier before t rest error (List.append_inj' split rfl).1

namespace Generate

open Stmt (definitions anonymous)

theorem join_other {table : FunctionTable} {index : Nat} {s : Stmt} (plain : s.isDefinition = false) :
    join table index s = .ok table := by
  cases s with
  | func name params body l => cases plain
  | expr value m =>
    cases value with
    | func params body l => cases plain
    | _ => rfl
  | _ => rfl

/-- One step of extraction: the statement is refused, or the table has the functions of one
statement more. -/
theorem join_refused_or_ok (before : List Stmt) (s : Stmt) :
    (∃ error, s.Refused before error ∧ join ⟨definitions 0 before⟩ (anonymous before) s = .error error) ∨
      (∀ error, ¬ s.Refused before error) ∧
        join ⟨definitions 0 before⟩ (anonymous before) s = .ok ⟨definitions 0 (before ++ [s])⟩ := by
  rw [Stmt.definitions_append, Nat.zero_add]
  cases definition : s.isDefinition with
  | false =>
    right
    rw [join_other definition, definitions_cons_other definition, definitions, List.append_nil]
    refine ⟨fun error refused => ?_, rfl⟩
    cases refused <;> cases definition
  | true =>
    cases s with
    | func name params body l =>
      rw [join, register_eq]
      cases reserved : C.isReserved name with
      | true => exact .inl ⟨_, .reserved reserved, rfl⟩
      | false =>
        by_cases taken : name ∈ (definitions 0 before).map FunctionDef.name
        · exact .inl ⟨_, .named reserved taken, if_pos taken⟩
        · refine .inr ⟨fun error refused => ?_, if_neg taken⟩
          cases refused with
          | reserved listed => simp [reserved] at listed
          | named _ listed => exact taken listed
    | expr value m =>
      cases value with
      | func params body l =>
        rw [join, register_eq]
        by_cases taken : anonymousName (anonymous before) ∈ (definitions 0 before).map FunctionDef.name
        · exact .inl ⟨_, .numbered taken, if_pos taken⟩
        · refine .inr ⟨fun error refused => ?_, if_neg taken⟩
          cases refused with
          | numbered listed => exact taken listed
      | _ => cases definition
    | _ => cases definition

/-- Extraction from where the statements `done` are parted. It fails at the first statement
that is refused; if there is none, it parts them all. -/
theorem extract_refused_or_ok {done : List Stmt} (unrefused : Stmt.Unrefused done) (ss : List Stmt) :
    (∃ before s after error, ss = before ++ s :: after ∧ Stmt.Unrefused (done ++ before) ∧
        s.Refused (done ++ before) error ∧
        extract ⟨definitions 0 done⟩ (anonymous done) ss = .error error) ∨
      Stmt.Unrefused (done ++ ss) ∧
        extract ⟨definitions 0 done⟩ (anonymous done) ss =
          .ok (⟨definitions 0 (done ++ ss)⟩, ss.filter fun s => !s.isDefinition) := by
  -- The table and the number are those of `done`, which grows by a statement in each step.
  induction ss generalizing done with
  | nil =>
    rw [List.append_nil]
    exact .inr ⟨unrefused, rfl⟩
  | cons s ss ih =>
    rw [extract_cons]
    rcases join_refused_or_ok done s with ⟨error, refused, joined⟩ | ⟨accepted, joined⟩
    · rw [joined]
      exact .inl ⟨[], s, ss, error, rfl, by rwa [List.append_nil], by rwa [List.append_nil], rfl⟩
    · rw [joined]
      have split : ∀ xs, done ++ [s] ++ xs = done ++ s :: xs := by simp
      rcases ih (unrefused.concat accepted) with
        ⟨before, t, after, error, rfl, first, refused, failed⟩ | ⟨all, parted⟩
      · left
        rw [Stmt.anonymous_append] at failed
        rw [split] at first refused
        refine ⟨s :: before, t, after, error, rfl, first, refused, ?_⟩
        simp only [bind, Except.bind, failed, Except.map]
      · right
        rw [Stmt.anonymous_append, split] at parted
        rw [split] at all
        refine ⟨all, ?_⟩
        simp only [bind, Except.bind, parted, Except.map, ahead, List.filter_cons]
        cases s.isDefinition <;> rfl

/-- What is no function is handed on, and plays no part in the rest. -/
theorem extract_filter (table : FunctionTable) (index : Nat) (ss : List Stmt) :
    extract table index ss = (extract table index (ss.filter Stmt.isDefinition)).map
      fun parts => (parts.1, ss.filter fun s => !s.isDefinition) := by
  induction ss generalizing table index with
  | nil => rfl
  | cons s ss ih =>
    cases definition : s.isDefinition with
    | false =>
      have others : (s :: ss).filter (fun s => !s.isDefinition) = s :: ss.filter fun s => !s.isDefinition :=
        List.filter_cons_of_pos (by simp [definition])
      rw [extract_cons_other definition, ih, others, List.filter_cons_of_neg (by simp [definition])]
      cases extract table index (ss.filter Stmt.isDefinition) <;> rfl
    | true =>
      have others : (s :: ss).filter (fun s => !s.isDefinition) = ss.filter fun s => !s.isDefinition :=
        List.filter_cons_of_neg (by simp [definition])
      rw [List.filter_cons_of_pos definition, others, extract_cons, extract_cons]
      cases join table index s with
      | error error => rfl
      | ok joined =>
        dsimp only [bind, Except.bind]
        rw [ih]
        cases extract joined (index + anonymous [s]) (ss.filter Stmt.isDefinition) with
        | error error => rfl
        | ok parts => simp [Except.map, ahead, definition]

theorem anonymousName_injective {i j : Nat} (same : anonymousName i = anonymousName j) : i = j := by
  have digits : Nat.toDigits 10 i = Nat.toDigits 10 j := by
    have shown := (String.append_right_inj _).mp same
    rwa [Nat.toString_eq_repr, Nat.toString_eq_repr, Nat.repr_eq_ofList_toDigits,
      Nat.repr_eq_ofList_toDigits, String.ofList_inj] at shown
  have value := congrArg (Nat.ofDigitChars 10 · 0) digits
  simpa [Nat.ofDigitChars_toDigits] using value

variable {α β : Type}

/-- A step that does not fail because a function is defined twice. -/
def NoDuplicate (step : Except GenError α) : Prop :=
  ∀ name l, step ≠ .error ⟨.duplicateFunction name, l⟩

theorem NoDuplicate.ok {value : α} : NoDuplicate (.ok value) := by
  intro name l same
  cases same

theorem NoDuplicate.error {cause : GenError.Cause} {l : Location}
    (other : ∀ name, cause ≠ .duplicateFunction name) : NoDuplicate (.error ⟨cause, l⟩ : Except GenError α) := by
  intro name m same
  cases same
  exact other name rfl

theorem NoDuplicate.bind {step : Except GenError α} {next : α → Except GenError β} (first : NoDuplicate step)
    (rest : ∀ value, NoDuplicate (next value)) : NoDuplicate (step >>= next) := by
  intro name l same
  rcases bind_eq_error.mp same with fault | ⟨value, _, fault⟩
  · exact first name l fault
  · exact rest value name l fault

variable {functions : FunctionTable} {scopes : Scopes}

theorem lowerBinary_noDuplicate (op : Operator) (left right : Expr) (l : Location) (a b : C.Expr) :
    NoDuplicate (Expr.lowerBinary scopes op left right l a b) := by
  have refused : NoDuplicate (.error ⟨.invalidStringOperation op, l⟩ : Except GenError C.Expr) := .error (by simp)
  unfold Expr.lowerBinary
  cases left.type scopes <;> cases right.type scopes <;> dsimp only
  · exact .ok
  · exact refused
  · exact refused
  · split
    · cases left.literalBody? <;> cases right.literalBody? <;> exact .ok
    · split
      · exact .ok
      · exact refused

theorem callee?_noDuplicate (callee : Expr) (l : Location) : NoDuplicate (Expr.callee? scopes callee l) := by
  cases callee with
  | ident name m =>
    unfold Expr.callee?
    dsimp only
    cases scopes.lookup? name with
    | none => exact .ok
    | some type => exact .error (by simp)
  | _ => exact .error (by simp)

theorem checkArguments_noDuplicate (function : String) (index : Nat) (args : List Expr) :
    NoDuplicate (Expr.checkArguments scopes function index args) := by
  induction args generalizing index with
  | nil => exact .ok
  | cons e es ih =>
    rw [Expr.checkArguments]
    cases e.type scopes with
    | int => exact ih (index + 1)
    | str => exact .error (by simp)

theorem checkCall_noDuplicate (name : String) (args : List Expr) (l : Location) :
    NoDuplicate (Expr.checkCall functions scopes name args l) := by
  unfold Expr.checkCall
  cases functions.get? name with
  | none => exact .ok
  | some d =>
    dsimp only
    split
    · exact checkArguments_noDuplicate name 1 args
    · exact .error (by simp)

theorem lowerAll_noDuplicate {args : List Expr} (each : ∀ e ∈ args, NoDuplicate (e.lower functions scopes)) :
    NoDuplicate (Expr.lowerAll functions scopes args) := by
  induction args with
  | nil => exact .ok
  | cons e es ih =>
    obtain ⟨first, rest⟩ := List.forall_mem_cons.mp each
    rw [Expr.lowerAll]
    exact first.bind fun code => (ih rest).bind fun codes => .ok

theorem lower_noDuplicate (e : Expr) : NoDuplicate (e.lower functions scopes) := by
  induction e using Expr.induction with
  | ident name l =>
    rw [Expr.lower]
    cases scopes.lookup? name with
    | none => exact .error (by simp)
    | some type => exact .ok
  | int value l =>
    rw [Expr.lower]
    split
    · exact .ok
    · exact .error (by simp)
  | str text l =>
    rw [Expr.lower]
    exact .ok
  | func params body l =>
    rw [Expr.lower]
    exact .error (by simp)
  | binary op left right l first second =>
    rw [Expr.lower]
    exact first.bind fun a => second.bind fun b => lowerBinary_noDuplicate op left right l a b
  | call callee args l _ each =>
    rw [Expr.lower]
    exact (callee?_noDuplicate callee l).bind fun name => (checkCall_noDuplicate name args l).bind fun _ =>
      (lowerAll_noDuplicate each).bind fun codes => .ok

theorem declare_noDuplicate (name : String) (type : ValueType) (l : Location) :
    NoDuplicate (declare scopes name type l) := by
  unfold declare
  split
  · exact .error (by simp)
  · cases scopes.declare? name type with
    | none => exact .error (by simp)
    | some after => exact .ok

theorem declaration_noDuplicate (name : String) (value : Option Expr) (l : Location) :
    NoDuplicate (declaration functions scopes name value l) := by
  unfold declaration
  split
  · exact .error (by simp)
  · cases value with
    | none => exact (declare_noDuplicate name .int l).bind fun after => .ok
    | some value =>
      dsimp only
      cases value.mention? name with
      | some used => exact .error (by simp)
      | none => exact (lower_noDuplicate value).bind fun code => (declare_noDuplicate _ _ l).bind fun after => .ok

theorem assignment_noDuplicate (name : String) (value : Expr) (l : Location) :
    NoDuplicate (assignment functions scopes name value l) := by
  unfold assignment
  cases scopes.lookup? name with
  | none => exact declaration_noDuplicate name (some value) l
  | some expected =>
    dsimp only
    split
    · exact (lower_noDuplicate value).bind fun code => .ok
    · exact .error (by simp)

theorem output_noDuplicate (value : Expr) : NoDuplicate (output functions scopes value) :=
  (lower_noDuplicate value).bind fun _ => .ok

theorem returning_noDuplicate (value : Option Expr) (l : Location) :
    NoDuplicate (returning functions scopes value l) := by
  cases value with
  | none => exact .ok
  | some value =>
    unfold returning
    dsimp only
    cases value.type scopes with
    | int => exact (lower_noDuplicate value).bind fun code => .ok
    | str => exact .error (by simp)

variable {context : Context}

theorem block_noDuplicate {body : Block}
    (each : ∀ s ∈ body.statements, ∀ scopes, NoDuplicate (statement context scopes s)) :
    NoDuplicate (block context scopes body) := by
  obtain ⟨ss, m⟩ := body
  rw [block]
  cases lowered : statements context scopes.push ss with
  | ok result => exact .ok
  | error failure =>
    obtain ⟨before, s, after, _, rfl, _, _, fault⟩ := statements_failed lowered
    intro name l same
    apply each s (by simp [Block.statements]) failure.scopes name l
    rw [fault]
    exact congrArg Except.error (Except.error.inj same)

theorem statement_noDuplicate (s : Stmt) (scopes : Scopes) : NoDuplicate (statement context scopes s) := by
  induction s using Stmt.induction generalizing scopes with
  | declare name value l =>
    rw [statement]
    exact declaration_noDuplicate name value l
  | assign name value l =>
    rw [statement]
    exact assignment_noDuplicate name value l
  | print value l =>
    rw [statement]
    exact (output_noDuplicate value).bind fun code => .ok
  | branch condition consequence alternative l yes no =>
    have other : NoDuplicate (optionalBlock context scopes alternative) := by
      cases alternative with
      | none =>
        rw [optionalBlock]
        exact .ok
      | some body =>
        rw [optionalBlock]
        exact (block_noDuplicate (no body rfl)).bind fun codes => .ok
    rw [statement]
    exact (lower_noDuplicate condition).bind fun test => (block_noDuplicate yes).bind fun first =>
      other.bind fun second => .ok
  | block body each =>
    rw [statement]
    exact (block_noDuplicate each).bind fun codes => .ok
  | foreign name l =>
    rw [statement]
    exact .ok
  | ret value l =>
    rw [statement]
    exact (returning_noDuplicate value l).bind fun code => .ok
  | func name params body l =>
    rw [statement]
    exact .error (by simp)
  | expr value l =>
    rw [statement]
    refine NoDuplicate.bind ?_ fun _ => .ok
    unfold bare
    split
    · exact (lower_noDuplicate value).bind fun code => .ok
    · exact output_noDuplicate value

end Generate

namespace Program

theorem generate_of_same_parts {p q : Program}
    (functions : p.statements.filter Stmt.isDefinition = q.statements.filter Stmt.isDefinition)
    (others : p.mainStatements = q.mainStatements) : p.generate = q.generate := by
  have parts : Generate.extract .empty 0 p.statements = Generate.extract .empty 0 q.statements := by
    unfold mainStatements at others
    rw [Generate.extract_filter, functions, others, ← Generate.extract_filter]
  rw [generate, generate, parts]

/-- That a function is defined twice is found when the functions are taken out, never later. -/
theorem extract_of_duplicate {p : Program} {g : Generator} {name : String} {l : Location}
    (failed : (g.run p).1 = .error ⟨.duplicateFunction name, l⟩) :
    Generate.extract .empty 0 p.statements = .error ⟨.duplicateFunction name, l⟩ := by
  rw [Generator.run] at failed
  cases result : p.generate with
  | ok code =>
    rw [result] at failed
    cases failed
  | error failure =>
    rw [result] at failed
    have given : failure.error = ⟨.duplicateFunction name, l⟩ := Except.error.inj failed
    rcases generate_failed result with ⟨parted, _⟩ | ⟨_, left, _, stops⟩
    · rw [parted, given]
    · rw [given] at stops
      cases stops with
      | parameter _ _ _ _ _ fault => exact absurd fault (Generate.declare_noDuplicate _ _ _ name l)
      | function _ _ _ stops =>
        obtain ⟨_, s, _, _, _, _, _, fault⟩ := stops
        exact absurd fault (Generate.statement_noDuplicate s _ name l)
      | main _ stops =>
        obtain ⟨_, s, _, _, _, _, _, fault⟩ := stops
        exact absurd fault (Generate.statement_noDuplicate s _ name l)

/-- No function of a text has a name like those that are given. -/
theorem read_func_isWord (source : String) {name : String} {params : List String} {body : Block} {l : Location}
    (member : .func name params body l ∈ (read source).1.statements) : IsWord name := by
  have readable := read_readable source (.name name)
    (Stmt.mem_leavesOfAll.mpr ⟨_, member, by simp [Stmt.leaves]⟩)
  exact readable.1

theorem refused_of_read {source : String} {before after : List Stmt} {s : Stmt} {name : String} {l : Location}
    (split : (read source).1.statements = before ++ s :: after)
    (refused : s.Refused before ⟨.duplicateFunction name, l⟩) :
    ∃ params body, s = .func name params body l ∧
      ∃ params' body' l', .func name params' body' l' ∈ before := by
  have words : ∀ other params body m, .func other params body m ∈ before ++ s :: after → IsWord other := by
    rw [← split]
    exact fun other params body m => read_func_isWord source
  cases refused with
  | named free taken =>
    refine ⟨_, _, rfl, ?_⟩
    rcases Stmt.name_of_mem_definitions taken with first | ⟨i, _, given⟩
    · exact first
    · have word := words _ _ _ _ (List.mem_append_right before (.head after))
      rw [given] at word
      exact absurd word (Generate.anonymousName_not_isWord i)
  | numbered taken =>
    -- A number is given once, so a name with this number would have to be read.
    rcases Stmt.name_of_mem_definitions taken with ⟨params, body, m, member⟩ | ⟨i, small, given⟩
    · have word := words _ params body m (List.mem_append_left _ member)
      exact absurd word (Generate.anonymousName_not_isWord _)
    · have same := Generate.anonymousName_injective given
      omega

/-- Extraction fails at the first statement that is refused after those in front of it, and
otherwise gives all functions and all other statements. Both are in order: the function of a
statement comes after those of the statements in front of it, and one without a name is
numbered by those without a name among these. So programs that have the same functions and
the same other statements, mixed in whichever way, give the same. In a program that was read
a function is defined twice only if two are declared by one name. -/
theorem extraction_parts_in_order (p : Program) :
    ((∃ before s after error, p.statements = before ++ s :: after ∧ Stmt.Unrefused before ∧
        s.Refused before error ∧ Generate.extract .empty 0 p.statements = .error error) ∨
      Stmt.Unrefused p.statements ∧
        Generate.extract .empty 0 p.statements = .ok (p.table, p.mainStatements)) ∧
    p.definitions.length = p.statements.countP Stmt.isDefinition ∧
    (∀ before s after, p.statements = before ++ s :: after → s.isDefinition = true →
      p.definitions[before.countP Stmt.isDefinition]? = s.definition? (Stmt.anonymous before)) ∧
    (∀ (q : Program) (g g' : Generator),
      p.statements.filter Stmt.isDefinition = q.statements.filter Stmt.isDefinition →
      p.mainStatements = q.mainStatements → g.run p = g'.run q) ∧
    ∀ source (g : Generator) name l, p = (read source).1 →
      (g.run p).1 = .error ⟨.duplicateFunction name, l⟩ →
      ∃ before params body after, p.statements = before ++ .func name params body l :: after ∧
        ∃ params' body' l', .func name params' body' l' ∈ before := by
  have parts := Generate.extract_refused_or_ok Stmt.unrefused_nil p.statements
  rw [List.nil_append] at parts
  refine ⟨parts, Stmt.length_definitions 0 p.statements, ?_, ?_, ?_⟩
  · intro before s after split definition
    rw [definitions, split, Stmt.definitions_getElem? definition]
  · intro q g g' functions others
    rw [Generator.run, Generator.run, generate_of_same_parts functions others]
  · intro source g name l whole failed
    have stopped := extract_of_duplicate failed
    rcases parts with ⟨before, s, after, error, split, _, refused, given⟩ | ⟨_, given⟩
    · have same : error = ⟨.duplicateFunction name, l⟩ := Except.error.inj (given.symm.trans stopped)
      subst same
      obtain ⟨params, body, rfl, earlier⟩ := refused_of_read (whole ▸ split) refused
      exact ⟨before, params, body, after, split, earlier⟩
    · cases given.symm.trans stopped

/-- Two functions are declared as `f`, with one without a name and the main body around them.
It makes no difference that the main body comes first. -/
theorem extraction_parts_in_order_sample :
    ∃ p q : Program,
      p = (read "x = 1; func f() { } func(a) { return a; } print(x); func f(b) { }").1 ∧
      p.statements.map Stmt.isDefinition = [false, true, true, false, true] ∧
      q.statements.map Stmt.isDefinition = [false, false, true, true, true] ∧
      Generator.new.run p = Generator.new.run q ∧ p.definitions.map FunctionDef.name = ["f", "func_0", "f"] ∧
      ∃ before params body after, p.statements = before ++ .func "f" params body ⟨1, 53⟩ :: after ∧
        (∃ params' body' l', .func "f" params' body' l' ∈ before) ∧
        p.definitions[before.countP Stmt.isDefinition]? = some ⟨"f", params, body, ⟨1, 53⟩⟩ := by
  generalize given :
    "x = 1; func f() { } func(a) { return a; } print(x); func f(b) { }" = source
  let p : Program := (read source).1
  let q : Program := ⟨p.mainStatements ++ p.statements.filter Stmt.isDefinition⟩
  have failed : (Generator.new.run p).1 = .error ⟨.duplicateFunction "f", ⟨1, 53⟩⟩ := by
    subst given
    decide +kernel
  have shape : p.statements.map Stmt.isDefinition = [false, true, true, false, true] ∧
      q.statements.map Stmt.isDefinition = [false, false, true, true, true] ∧
      p.definitions.map FunctionDef.name = ["f", "func_0", "f"] := by
    subst given
    decide +kernel
  have functions : p.statements.filter Stmt.isDefinition = q.statements.filter Stmt.isDefinition := by
    simp [q, mainStatements, List.filter_filter]
  have others : p.mainStatements = q.mainStatements := by
    simp [q, mainStatements, List.filter_filter]
  obtain ⟨_, _, placed, mixed, twice⟩ := extraction_parts_in_order p
  obtain ⟨before, params, body, after, split, earlier⟩ := twice source Generator.new "f" ⟨1, 53⟩ rfl failed
  refine ⟨p, q, rfl, shape.1, shape.2.1, mixed q _ _ functions others, shape.2.2, before, params, body, after,
    split, earlier, ?_⟩
  exact placed before _ after split rfl

end Program

end ImpToC
