import ImpToC.Proofs.C.Lines
import ImpToC.Proofs.Emission.Partition
import ImpToC.Proofs.Emission.Separation

/-!
External declarations leave a comment behind and do nothing else. One of them may be put into
any list of statements that is lowered, however deep: the program still fails in the same way,
or its text has one line more. The one place where this is not so is after the return that
ends a function, because a function that does not end in a return is given one.
-/
namespace ImpToC

/-- Two steps that fail alike, or both give results that are related. -/
inductive Alike {ε α β : Type} (R : α → β → Prop) : Except ε α → Except ε β → Prop where
  | failed {fault : ε} : Alike R (.error fault) (.error fault)
  | done {value : α} {value' : β} (related : R value value') : Alike R (.ok value) (.ok value')

namespace Alike

variable {ε α β γ δ : Type} {R : α → β → Prop} {S : γ → δ → Prop}

theorem bind {step : Except ε α} {step' : Except ε β} {next : α → Except ε γ} {next' : β → Except ε δ}
    (first : Alike R step step') (rest : ∀ value value', R value value' → Alike S (next value) (next' value')) :
    Alike S (step >>= next) (step' >>= next') := by
  cases first with
  | failed => exact .failed
  | done related => exact rest _ _ related

/-- A step that both begin with. -/
theorem bind_same {step : Except ε α} {next : α → Except ε γ} {next' : α → Except ε δ}
    (rest : ∀ value, Alike S (next value) (next' value)) : Alike S (step >>= next) (step >>= next') := by
  cases step with
  | error fault => exact .failed
  | ok value => exact rest value

theorem map {step : Except ε α} {step' : Except ε β} {f : α → γ} {f' : β → δ} (first : Alike R step step')
    (each : ∀ value value', R value value' → S (f value) (f' value')) :
    Alike S (step.map f) (step'.map f') := by
  cases first with
  | failed => exact .failed
  | done related => exact .done (each _ _ related)

theorem map_same {step : Except ε α} {f : α → γ} {f' : α → δ} (each : ∀ value, S (f value) (f' value)) :
    Alike S (step.map f) (step.map f') := by
  cases step with
  | error fault => exact .failed
  | ok value => exact .done (each value)

theorem mapError {ζ : Type} {step : Except ε α} {step' : Except ε β} (f : ε → ζ) (first : Alike R step step') :
    Alike R (step.mapError f) (step'.mapError f) := by
  cases first with
  | failed => exact .failed
  | done related => exact .done related

theorem mono {T : α → β → Prop} {step : Except ε α} {step' : Except ε β} (first : Alike R step step')
    (weaker : ∀ value value', R value value' → T value value') : Alike T step step' := by
  cases first with
  | failed => exact .failed
  | done related => exact .done (weaker _ _ related)

theorem of_map {f : α → γ} {f' : β → γ} {step : Except ε α} {step' : Except ε β}
    (same : step.map f = step'.map f') : Alike (fun value value' => f value = f' value') step step' := by
  cases step with
  | error fault =>
    cases step' with
    | error fault' =>
      cases same
      exact .failed
    | ok value' => cases same
  | ok value =>
    cases step' with
    | error fault' => cases same
    | ok value' => exact .done (Except.ok.inj same)

/-- Where both steps give results, these are the results that are related. -/
theorem known {step : Except ε α} {step' : Except ε β} (first : Alike R step step') :
    Alike (fun value value' => R value value' ∧ step = .ok value ∧ step' = .ok value') step step' := by
  cases first with
  | failed => exact .failed
  | done related => exact .done ⟨related, rfl, rfl⟩

end Alike

namespace Stmt

/-- A statement around a block. -/
inductive Shell where
  | consequence (condition : Expr) (no : Option Block) (l : Location)
  | alternative (condition : Expr) (yes : Block) (l : Location)
  | block

def Shell.fill : Shell → Block → Stmt
  | consequence condition no l, body => .branch condition body no l
  | alternative condition yes l, body => .branch condition yes (some body) l
  | block, body => .block body

theorem Shell.isDefinition_fill (shell : Shell) (body : Block) : (shell.fill body).isDefinition = false := by
  cases shell <;> rfl

/-- The second list of statements is the first with `x` put in, `depth` blocks further in. -/
inductive Inserts (x : Stmt) : Nat → List Stmt → List Stmt → Prop where
  | here (before after : List Stmt) : Inserts x 0 (before ++ after) (before ++ x :: after)
  | inside {depth : Nat} {ss ss' : List Stmt} (before after : List Stmt) (shell : Shell) (m : Location)
      (inner : Inserts x depth ss ss') :
      Inserts x (depth + 1) (before ++ shell.fill (.mk ss m) :: after) (before ++ shell.fill (.mk ss' m) :: after)

/-- What is put in is no function, and neither is a statement that it is put into. -/
theorem Inserts.filter {x : Stmt} {n : Nat} {ss ss' : List Stmt} (plain : x.isDefinition = false)
    (inserted : Inserts x n ss ss') :
    ss.filter isDefinition = ss'.filter isDefinition ∧
      Inserts x n (ss.filter fun s => !s.isDefinition) (ss'.filter fun s => !s.isDefinition) := by
  cases inserted with
  | here before after =>
    simp only [List.filter_append, List.filter_cons, plain, Bool.not_false, if_true, Bool.false_eq_true, if_false]
    exact ⟨trivial, .here _ _⟩
  | inside before after shell m inner =>
    simp only [List.filter_append, List.filter_cons, Shell.isDefinition_fill, Bool.not_false, if_true,
      Bool.false_eq_true, if_false]
    exact ⟨trivial, .inside _ _ shell m inner⟩

end Stmt

namespace Generate

variable {context : Context} {name : String} {l : Location}

theorem statements_cons (scopes : Scopes) (s : Stmt) (ss : List Stmt) :
    statements context scopes (s :: ss) =
      (statement context scopes s).mapError (⟨·, scopes⟩) >>= fun first =>
        (statements context first.2 ss).map fun rest => (first.1 :: rest.1, rest.2) := by
  rw [statements]
  cases statement context scopes s with
  | error error => rfl
  | ok first =>
    change statements context first.2 ss >>= _ = (statements context first.2 ss).map _
    cases statements context first.2 ss <;> rfl

theorem statements_append (scopes : Scopes) (xs ys : List Stmt) :
    statements context scopes (xs ++ ys) = statements context scopes xs >>= fun first =>
      (statements context first.2 ys).map fun rest => (first.1 ++ rest.1, rest.2) := by
  induction xs generalizing scopes with
  | nil =>
    rw [List.nil_append, statements]
    change _ = (statements context scopes ys).map _
    cases statements context scopes ys <;> rfl
  | cons x xs ih =>
    rw [List.cons_append, statements_cons, statements_cons]
    cases statement context scopes x with
    | error error => rfl
    | ok head =>
      change Except.map _ (statements context head.2 (xs ++ ys)) = Except.map _ (statements context head.2 xs) >>= _
      rw [ih]
      cases statements context head.2 xs with
      | error failure => rfl
      | ok first =>
        change Except.map _ (Except.map _ (statements context first.2 ys)) = Except.map _ (statements context first.2 ys)
        cases statements context first.2 ys <;> rfl

/-- Code and scopes, where the code gets a comment and the scopes are as they were. -/
def Noted (name : String) (n : Nat) (result result' : List C.Stmt × Scopes) : Prop :=
  C.Notes name n result.1 result'.1 ∧ result.2 = result'.2

theorem block_alike {n : Nat} {ss ss' : List Stmt} {scopes : Scopes} {m : Location}
    (inner : Alike (Noted name n) (statements context scopes.push ss) (statements context scopes.push ss')) :
    Alike (C.Notes name n) (block context scopes (.mk ss m)) (block context scopes (.mk ss' m)) := by
  rw [block, block]
  generalize statements context scopes.push ss = step at inner
  generalize statements context scopes.push ss' = step' at inner
  cases inner with
  | failed => exact .failed
  | done related => exact .done related.1

theorem shell_alike {n : Nat} {body body' : Block} {scopes : Scopes} (shell : Stmt.Shell)
    (inner : Alike (C.Notes name n) (block context scopes body) (block context scopes body')) :
    Alike (fun result result' => C.Notes name (n + 1) [result.1] [result'.1] ∧ result.2 = result'.2)
      (statement context scopes (shell.fill body)) (statement context scopes (shell.fill body')) := by
  cases shell with
  | consequence condition no l =>
    rw [Stmt.Shell.fill, Stmt.Shell.fill, statement, statement]
    refine Alike.bind_same fun test => ?_
    refine inner.bind fun yes yes' noted => Alike.bind_same fun other => ?_
    exact .done ⟨noted.consequence test other, rfl⟩
  | alternative condition yes l =>
    rw [Stmt.Shell.fill, Stmt.Shell.fill, statement, statement]
    refine Alike.bind_same fun test => ?_
    refine Alike.bind_same fun codes => ?_
    have other : Alike (fun no no' => C.Notes name (n + 1) [.branch test codes no] [.branch test codes no'])
        (optionalBlock context scopes (some body)) (optionalBlock context scopes (some body')) := by
      rw [optionalBlock, optionalBlock]
      exact inner.bind fun no no' noted => .done (noted.alternative test codes)
    exact other.bind fun no no' noted => .done ⟨noted, rfl⟩
  | block =>
    rw [Stmt.Shell.fill, Stmt.Shell.fill, statement, statement]
    exact inner.bind fun codes codes' noted => .done ⟨noted.block, rfl⟩

/-- What is put into statements leaves a comment in their code and no trace in the scopes. -/
theorem statements_alike {n : Nat} {ss ss' : List Stmt} (inserted : Stmt.Inserts (.foreign name l) n ss ss')
    (scopes : Scopes) :
    Alike (Noted name n) (statements context scopes ss) (statements context scopes ss') := by
  -- The statements in front are lowered alike, and what follows starts in the same scopes.
  induction inserted generalizing scopes with
  | here before after =>
    rw [statements_append, statements_append]
    refine Alike.bind_same fun first => ?_
    rw [statements_cons, statement]
    change Alike _ (Except.map _ (statements context first.2 after))
      (Except.map _ (Except.map _ (statements context first.2 after)))
    cases statements context first.2 after with
    | error failure => exact .failed
    | ok rest => exact .done ⟨C.notes_here first.1 rest.1, rfl⟩
  | @inside depth ss ss' before after shell m inner ih =>
    rw [statements_append, statements_append]
    refine Alike.bind_same fun first => ?_
    have filled := shell_alike shell (block_alike (m := m) (ih first.2.push))
    have rest : Alike (Noted name (depth + 1)) (statements context first.2 (shell.fill (.mk ss m) :: after))
        (statements context first.2 (shell.fill (.mk ss' m) :: after)) := by
      rw [statements_cons, statements_cons]
      refine (filled.mapError _).bind fun head head' related => ?_
      rw [related.2]
      exact Alike.map_same fun tail => ⟨related.1.inFrontOf tail.1, rfl⟩
    exact rest.map fun _ _ related => ⟨related.1.behind first.1, related.2⟩

end Generate

/-- A function without its body. -/
def FunctionDef.head (d : FunctionDef) : FunctionDef := { d with body := .mk [] d.location }

/-- A statement without its body, if it defines a function. -/
def Stmt.head : Stmt → Stmt
  | .func name params _ l => .func name params (.mk [] l) l
  | .expr (.func params _ l) m => .expr (.func params (.mk [] l) l) m
  | s => s

theorem Stmt.head_of_other {s : Stmt} (plain : s.isDefinition = false) : s.head = s := by
  cases s with
  | func name params body l => cases plain
  | expr value m =>
    cases value with
    | func params body l => cases plain
    | _ => rfl
  | _ => rfl

theorem Stmt.anonymous_head (s : Stmt) : Stmt.anonymous [s.head] = Stmt.anonymous [s] := by
  cases s with
  | expr value m => cases value <;> rfl
  | _ => rfl

theorem Stmt.isDefinition_head (s : Stmt) : s.head.isDefinition = s.isDefinition := by
  cases s with
  | expr value m => cases value <;> rfl
  | _ => rfl

namespace FunctionTable

def heads (t : FunctionTable) : FunctionTable := ⟨t.definitions.map FunctionDef.head⟩

theorem names_heads (t : FunctionTable) : t.heads.names = t.names := by
  simp [names, heads, FunctionDef.head]

theorem arityOf_heads (t : FunctionTable) (name : String) : Expr.arityOf t.heads name = Expr.arityOf t name := by
  obtain ⟨ds⟩ := t
  rw [Expr.arityOf, Expr.arityOf, get?_eq_find?, get?_eq_find?]
  simp [heads, List.find?_map, FunctionDef.head, Function.comp_def]

end FunctionTable

namespace Generate

variable {name : String} {l : Location}

theorem register_heads (t : FunctionTable) (d : FunctionDef) :
    register t.heads d.head = (register t d).map FunctionTable.heads := by
  rw [register_eq, register_eq, FunctionTable.names_heads]
  change (if d.name ∈ t.names then _ else _) = _
  split
  · rfl
  · simp [Except.map, FunctionTable.heads]

theorem join_heads (t : FunctionTable) (index : Nat) (s : Stmt) :
    join t.heads index s.head = (join t index s).map FunctionTable.heads := by
  cases definition : s.isDefinition with
  | false =>
    rw [Stmt.head_of_other definition, join_other definition, join_other definition]
    rfl
  | true =>
    cases s with
    | func name params body l =>
      rw [Stmt.head, join, join]
      split
      · rfl
      · exact register_heads t ⟨name, params, body, l⟩
    | expr value m =>
      cases value with
      | func params body l => exact register_heads t ⟨anonymousName index, params, body, l⟩
      | _ => cases definition
    | _ => cases definition

/-- Bodies play no part when functions are taken out. -/
theorem extract_heads (t : FunctionTable) (index : Nat) (ss : List Stmt) :
    extract t.heads index (ss.map Stmt.head) = (extract t index ss).map fun parts => (parts.1.heads, parts.2) := by
  induction ss generalizing t index with
  | nil => rfl
  | cons s ss ih =>
    rw [List.map_cons, extract_cons, extract_cons, join_heads, Stmt.anonymous_head]
    cases join t index s with
    | error error => rfl
    | ok joined =>
      change Except.map _ (extract joined.heads _ (ss.map Stmt.head)) = Except.map _ (Except.map _ (extract joined _ ss))
      rw [ih]
      cases extract joined (index + Stmt.anonymous [s]) ss with
      | error error => rfl
      | ok parts =>
        simp only [Except.map, ahead, Stmt.isDefinition_head]
        cases definition : s.isDefinition with
        | false => rw [Stmt.head_of_other definition]
        | true => rfl

theorem functions_append (table : FunctionTable) (xs ys : List FunctionDef) :
    functions table (xs ++ ys) = functions table xs >>= fun fs => (functions table ys).map (fs ++ ·) := by
  induction xs with
  | nil =>
    rw [List.nil_append, functions]
    change _ = (functions table ys).map ([] ++ ·)
    cases functions table ys <;> rfl
  | cons d ds ih =>
    rw [List.cons_append, functions, functions, ih]
    cases function table d with
    | error failure => rfl
    | ok f =>
      cases functions table ds with
      | error failure => rfl
      | ok fs =>
        change Except.map _ (functions table ys) >>= _ = Except.map _ (functions table ys)
        cases functions table ys <;> rfl

theorem mainBody_eq (table : FunctionTable) (ss : List Stmt) :
    mainBody table ss =
      (statements ⟨table, false⟩ Scopes.empty.push ss).map fun result => result.1 ++ [.ret (.int 0)] := by
  rw [mainBody]
  cases statements ⟨table, false⟩ Scopes.empty.push ss <;> rfl

theorem mainBody_alike {n : Nat} {ss ss' : List Stmt} (inserted : Stmt.Inserts (.foreign name l) n ss ss')
    (table : FunctionTable) : Alike (C.Notes name n) (mainBody table ss) (mainBody table ss') := by
  rw [mainBody_eq, mainBody_eq]
  exact (statements_alike inserted _).map fun _ _ related => related.1.inFrontOf _

theorem endsInReturn_concat (ss : List Stmt) (s : Stmt) : endsInReturn (ss ++ [s]) = endsInReturn [s] := by
  simp [endsInReturn]

/-- Only the last statement decides, so all but one place for a new one are safe. -/
theorem endsInReturn_inserts {x : Stmt} {n : Nat} {ss ss' : List Stmt} (inserted : Stmt.Inserts x n ss ss')
    (plain : endsInReturn [x] = false) (place : endsInReturn ss = true → ss' ≠ ss ++ [x]) :
    endsInReturn ss = endsInReturn ss' := by
  have behind : ∀ (before rest : List Stmt) (s last : Stmt),
      endsInReturn (before ++ s :: rest.concat last) = endsInReturn [last] := by
    intro before rest s last
    rw [List.concat_eq_append, ← List.cons_append, ← List.append_assoc, endsInReturn_concat]
  cases inserted with
  | here before after =>
    rcases after.eq_nil_or_concat with rfl | ⟨rest, last, rfl⟩
    · -- At the very end: this is the place that is left out if there is a return in front.
      rw [List.append_nil] at place ⊢
      rw [endsInReturn_concat, plain]
      cases ended : endsInReturn before with
      | false => rfl
      | true => exact absurd rfl (place ended)
    · rw [behind, List.concat_eq_append, ← List.append_assoc, endsInReturn_concat]
  | inside before after shell m inner =>
    rcases after.eq_nil_or_concat with rfl | ⟨rest, last, rfl⟩
    · rw [endsInReturn_concat, endsInReturn_concat]
      cases shell <;> rfl
    · rw [behind, behind]

theorem functions_congr {table table' : FunctionTable}
    (agree : ∀ name, Expr.arityOf table name = Expr.arityOf table' name) (ds : List FunctionDef) :
    functions table ds = functions table' ds := by
  induction ds with
  | nil => rfl
  | cons d ds ih => rw [functions, functions, ih, function_congr fun name _ => agree name]

/-- A function that gets a comment in its body, and is the same otherwise. -/
structure NotedFunction (name : String) (n : Nat) (f f' : C.Function) : Prop where
  name_eq : f.name = f'.name
  params_eq : f.params = f'.params
  body : C.Notes name n f.body f'.body

theorem function_alike {n : Nat} {ss ss' : List Stmt} (inserted : Stmt.Inserts (.foreign name l) n ss ss')
    (ending : endsInReturn ss = endsInReturn ss') (table : FunctionTable) (title : String) (params : List String)
    (k m : Location) :
    Alike (NotedFunction name n) (function table ⟨title, params, .mk ss m, k⟩)
      (function table ⟨title, params, .mk ss' m, k⟩) := by
  unfold function
  refine Alike.bind_same fun scopes => ?_
  refine (statements_alike inserted scopes).bind fun result result' related => ?_
  simp only [Block.statements, ending]
  exact .done ⟨rfl, rfl, related.1.inFrontOf _⟩

theorem functions_alike {n : Nat} {table : FunctionTable} {d d' : FunctionDef}
    (alike : Alike (NotedFunction name n) (function table d) (function table d')) (ds es : List FunctionDef) :
    Alike (fun fs fs' => ∃ xs f f' ys, fs = xs ++ f :: ys ∧ fs' = xs ++ f' :: ys ∧ NotedFunction name n f f')
      (functions table (ds ++ d :: es)) (functions table (ds ++ d' :: es)) := by
  rw [functions_append, functions_append]
  refine Alike.bind_same fun xs => ?_
  have rest : Alike (fun fs fs' => ∃ f f' ys, fs = f :: ys ∧ fs' = f' :: ys ∧ NotedFunction name n f f')
      (functions table (d :: es)) (functions table (d' :: es)) := by
    rw [functions, functions]
    refine alike.bind fun f f' noted => Alike.bind_same fun ys => ?_
    exact .done ⟨f, f', ys, rfl, rfl, noted⟩
  refine rest.map ?_
  rintro _ _ ⟨f, f', ys, rfl, rfl, noted⟩
  exact ⟨xs, f, f', ys, rfl, rfl, noted⟩

end Generate

namespace Stmt

/-- All of a function at the top level but its body. -/
inductive Header where
  | named (name : String) (params : List String) (l : Location)
  | unnamed (params : List String) (l m : Location)

namespace Header

def fill : Header → Block → Stmt
  | named name params l, body => .func name params body l
  | unnamed params l m, body => .expr (.func params body l) m

/-- The function, with `index` functions without a name before it. -/
def define (index : Nat) : Header → Block → FunctionDef
  | named name params l, body => ⟨name, params, body, l⟩
  | unnamed params l _, body => ⟨Generate.anonymousName index, params, body, l⟩

theorem head_fill (header : Header) (body body' : Block) : (header.fill body).head = (header.fill body').head := by
  cases header <;> rfl

/-- Whatever the body is, the function stands between the same others. -/
theorem definitions_fill (header : Header) (before after : List Stmt) :
    ∃ others, ∀ body, definitions 0 (before ++ header.fill body :: after) =
      definitions 0 before ++ header.define (anonymous before) body :: others := by
  refine ⟨definitions (anonymous before + anonymous [header.fill (.mk [] ⟨0, 0⟩)]) after, fun body => ?_⟩
  rw [definitions_append, Nat.zero_add, definitions_cons]
  cases header <;> rfl

theorem function_alike {name : String} {l : Location} {n : Nat} {ss ss' : List Stmt} (header : Header)
    (inserted : Inserts (.foreign name l) n ss ss') (ending : Generate.endsInReturn ss = Generate.endsInReturn ss')
    (table : FunctionTable) (index : Nat) (m : Location) :
    Alike (Generate.NotedFunction name n) (Generate.function table (header.define index (.mk ss m)))
      (Generate.function table (header.define index (.mk ss' m))) := by
  cases header <;> exact Generate.function_alike inserted ending table _ _ _ m

end Header

end Stmt

/-- The second program is the first with `x` put into its main body or into a function, at
the given depth of indentation. The place after a return that ends a function is left out. -/
inductive Program.Inserts (x : Stmt) : Nat → Program → Program → Prop where
  | main {n : Nat} {ss ss' : List Stmt} (inner : Stmt.Inserts x n ss ss') : Inserts x (n + 1) ⟨ss⟩ ⟨ss'⟩
  | function {n : Nat} {ss ss' : List Stmt} (before after : List Stmt) (header : Stmt.Header) (m : Location)
      (inner : Stmt.Inserts x n ss ss') (place : Generate.endsInReturn ss = true → ss' ≠ ss ++ [x]) :
      Inserts x (n + 1) ⟨before ++ header.fill (.mk ss m) :: after⟩ ⟨before ++ header.fill (.mk ss' m) :: after⟩

namespace Program

variable {name : String} {l : Location} {n : Nat} {ss ss' : List Stmt}

theorem generate_eq (p : Program) :
    p.generate = (Generate.extract .empty 0 p.statements).mapError (⟨·, .empty⟩) >>= fun parts =>
      Generate.functions parts.1 parts.1.definitions >>= fun fs =>
        (Generate.mainBody parts.1 parts.2).map fun main => ⟨fs, main⟩ := by
  unfold generate
  cases Generate.extract .empty 0 p.statements with
  | error error => rfl
  | ok parts =>
    change (Generate.functions parts.1 parts.1.definitions >>= _) = Generate.functions parts.1 parts.1.definitions >>= _
    cases Generate.functions parts.1 parts.1.definitions with
    | error failure => rfl
    | ok fs =>
      change (Generate.mainBody parts.1 parts.2 >>= _) = (Generate.mainBody parts.1 parts.2).map _
      cases Generate.mainBody parts.1 parts.2 <;> rfl

/-- Programs whose code fails alike, or has the comment for `name` put in. -/
def Annotates (name : String) (depth : Nat) (p p' : Program) : Prop :=
  Alike (fun c c' => C.Extends (C.foreignLine name depth) c.render c'.render) p.generate p'.generate

/-- In the main body: the functions are the same, and the other statements get one more. -/
theorem annotates_main (inserted : Stmt.Inserts (.foreign name l) n ss ss') :
    Annotates name (n + 1) ⟨ss⟩ ⟨ss'⟩ := by
  obtain ⟨functions, others⟩ := inserted.filter rfl
  have parted : Alike (fun parts parts' => parts.1 = parts'.1 ∧ Stmt.Inserts (.foreign name l) n parts.2 parts'.2)
      (Generate.extract .empty 0 ss) (Generate.extract .empty 0 ss') := by
    rw [Generate.extract_filter _ _ ss, Generate.extract_filter _ _ ss', functions]
    exact Alike.map_same fun parts => ⟨rfl, others⟩
  rw [Annotates, generate_eq, generate_eq]
  refine (parted.mapError _).bind fun parts parts' related => ?_
  rw [related.1]
  refine Alike.bind_same fun fs => ?_
  exact (Generate.mainBody_alike related.2 _).map fun main main' noted => C.Code.extends_main noted fs

/-- Programs that differ in bodies of functions only: both are parted, or neither is, and a
call is checked in the same way in both. -/
theorem extract_alike (p p' : Program) (heads : p.statements.map Stmt.head = p'.statements.map Stmt.head) :
    Alike (fun parts parts' => parts = (p.table, p.mainStatements) ∧ parts' = (p'.table, p'.mainStatements) ∧
        p.mainStatements = p'.mainStatements ∧ ∀ name, Expr.arityOf p.table name = Expr.arityOf p'.table name)
      (Generate.extract .empty 0 p.statements) (Generate.extract .empty 0 p'.statements) := by
  have shared : (Generate.extract .empty 0 p.statements).map (fun parts => (parts.1.heads, parts.2)) =
      (Generate.extract .empty 0 p'.statements).map fun parts => (parts.1.heads, parts.2) := by
    rw [← Generate.extract_heads, ← Generate.extract_heads, heads]
  refine (Alike.of_map shared).known.mono ?_
  rintro ⟨table, main⟩ ⟨table', main'⟩ ⟨same, first, second⟩
  obtain ⟨_, rfl, rfl⟩ := Generate.extract_ok.mp first
  obtain ⟨_, rfl, rfl⟩ := Generate.extract_ok.mp second
  obtain ⟨tables, mains⟩ := Prod.mk.inj same
  change p.table.heads = p'.table.heads at tables
  refine ⟨rfl, rfl, mains, fun name => ?_⟩
  rw [← FunctionTable.arityOf_heads, tables, FunctionTable.arityOf_heads]

/-- In a function: the main body and the other functions are the same. -/
theorem annotates_function (inserted : Stmt.Inserts (.foreign name l) n ss ss')
    (place : Generate.endsInReturn ss = true → ss' ≠ ss ++ [.foreign name l]) (before after : List Stmt)
    (header : Stmt.Header) (m : Location) :
    Annotates name (n + 1) ⟨before ++ header.fill (.mk ss m) :: after⟩
      ⟨before ++ header.fill (.mk ss' m) :: after⟩ := by
  have parted := extract_alike ⟨before ++ header.fill (.mk ss m) :: after⟩
    ⟨before ++ header.fill (.mk ss' m) :: after⟩ (by simp [header.head_fill (.mk ss m) (.mk ss' m)])
  obtain ⟨others, listed⟩ := header.definitions_fill before after
  rw [Annotates, generate_eq, generate_eq]
  refine (parted.mapError _).bind ?_
  rintro _ _ ⟨rfl, rfl, mains, agree⟩
  dsimp only
  rw [← mains, ← Generate.functions_congr agree, ← Generate.mainBody_congr fun name _ => agree name]
  have alike := header.function_alike inserted (Generate.endsInReturn_inserts inserted rfl place)
    (table ⟨before ++ header.fill (.mk ss m) :: after⟩) (Stmt.anonymous before) m
  have lowered := Generate.functions_alike alike (Stmt.definitions 0 before) others
  rw [← listed, ← listed] at lowered
  refine lowered.bind ?_
  rintro _ _ ⟨fs, f, f', gs, rfl, rfl, noted⟩
  exact Alike.map_same fun main => C.Code.extends_function noted.name_eq noted.params_eq noted.body fs gs main

/-- An external declaration may be put anywhere but after a return that ends a function. The
program fails as before, or its text has one more line, with the indentation of the place;
and the same is remembered of it. -/
theorem foreign_inert {depth : Nat} {p p' : Program} (inserted : p.Inserts (.foreign name l) depth p')
    (g : Generator) :
    (g.run p').2 = (g.run p).2 ∧
      ((∃ error, (g.run p).1 = .error error ∧ (g.run p').1 = .error error) ∨
        ∃ before after, C.IsLines before ∧ (g.run p).1 = .ok (before ++ after) ∧
          (g.run p').1 = .ok (before ++
            C.line depth ("// extern " ++ name ++ " declared (handled by C headers)") ++ after)) := by
  have annotated : Annotates name depth p p' := by
    cases inserted with
    | main inner => exact annotates_main inner
    | function before after header m inner place => exact annotates_function inner place before after header m
  unfold Annotates at annotated
  rw [Generator.run, Generator.run]
  generalize p.generate = step at annotated
  generalize p'.generate = step' at annotated
  cases annotated with
  | failed => exact ⟨rfl, .inl ⟨_, rfl, rfl⟩⟩
  | done extended =>
    obtain ⟨before, after, lines, text, text'⟩ := extended
    exact ⟨rfl, .inr ⟨before, after, lines, congrArg Except.ok text, congrArg Except.ok text'⟩⟩

/-- A comment in the alternative of a function, two levels in. The function is accepted, so
its text gets the line. -/
theorem foreign_inert_sample :
    ∃ p p' : Program, p.Inserts (.foreign "puts" ⟨3, 5⟩) 2 p' ∧ p.statements.length = 1 ∧
      ∃ before after, C.IsLines before ∧ (Generator.new.run p).1 = .ok (before ++ after) ∧
        (Generator.new.run p').1 =
          .ok (before ++ C.line 2 "// extern puts declared (handled by C headers)" ++ after) := by
  let last : List Stmt := [.ret (some (.ident "a" ⟨5, 8⟩)) ⟨5, 1⟩]
  let inner : List Stmt := [.assign "a" (.int 1 ⟨4, 5⟩) ⟨4, 1⟩]
  let shell : Stmt.Shell := .alternative (.ident "a" ⟨2, 4⟩) (.mk [] ⟨2, 6⟩) ⟨2, 1⟩
  let header : Stmt.Header := .named "f" ["a"] ⟨1, 1⟩
  have deeper := Stmt.Inserts.inside [] last shell ⟨2, 15⟩ (.here (x := .foreign "puts" ⟨3, 5⟩) [] inner)
  have inserted := Program.Inserts.function [] [] header ⟨1, 11⟩ deeper (fun _ same => by
    have lengths := congrArg List.length same
    cases lengths)
  refine ⟨_, _, inserted, rfl, ?_⟩
  rcases (foreign_inert inserted Generator.new).2 with ⟨error, failed, _⟩ | told
  · cases failed
  · exact told

end Program

end ImpToC
