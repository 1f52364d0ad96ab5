import ImpToC.Proofs.Lowering
import ImpToC.Proofs.WellFormed

/-!
The functions of a program and its main body, as the generator parts them. Taking
functions out succeeds exactly when their names are distinct and may be declared,
and then the table holds the definitions of the program in order.
-/
namespace ImpToC

namespace FunctionTable

theorem get?_eq_find? (t : FunctionTable) (name : String) :
    t.get? name = t.definitions.find? fun d => d.name == name := by
  obtain ⟨ds⟩ := t
  simp only [get?, position?]
  induction ds with
  | nil => rfl
  | cons d ds ih =>
    simp only [List.findIdx?_cons, List.find?_cons]
    cases d.name == name with
    | true => rfl
    | false =>
      simp only [Bool.false_eq_true, if_false, ← ih]
      cases ds.findIdx? fun d => d.name == name <;> rfl

theorem insert_ok {t table : FunctionTable} {d : FunctionDef} :
    t.insert d = .ok table ↔ d.name ∉ t.names ∧ table = ⟨t.definitions ++ [d]⟩ := by
  have absent : t.position? d.name = none ↔ d.name ∉ t.names := by
    simp [position?, names, List.findIdx?_eq_none_iff]
  unfold insert
  cases found : t.position? d.name with
  | none => simp [absent.mp found, eq_comm]
  | some i =>
    have present : ¬ d.name ∉ t.names := by
      intro missing
      rw [absent.mpr missing] at found
      cases found
    simp [present]

end FunctionTable

namespace Generate

theorem register_ok {table after : FunctionTable} {d : FunctionDef} :
    register table d = .ok after ↔
      d.name ∉ table.names ∧ after = ⟨table.definitions ++ [d]⟩ := by
  rw [← FunctionTable.insert_ok]
  unfold register
  cases table.insert d <;> simp

/-- What has to hold of statements so that their functions can join a table. -/
structure Extractable (table : FunctionTable) (index : Nat) (ss : List Stmt) : Prop where
  distinct : ((Stmt.definitions index ss).map FunctionDef.name).Nodup
  absent : ∀ d ∈ Stmt.definitions index ss, d.name ∉ table.names
  unreserved : ∀ name params body l, .func name params body l ∈ ss → C.isReserved name = false

theorem definitions_cons_other {index : Nat} {s : Stmt} {ss : List Stmt}
    (plain : s.isDefinition = false) :
    Stmt.definitions index (s :: ss) = Stmt.definitions index ss := by
  cases s with
  | func name params body l => cases plain
  | expr value l =>
    cases value with
    | func params body m => cases plain
    | _ => rfl
  | _ => rfl

theorem extract_cons_other {table : FunctionTable} {index : Nat} {s : Stmt} {ss : List Stmt}
    (plain : s.isDefinition = false) :
    extract table index (s :: ss) =
      (do let (table, rest) ← extract table index ss; return (table, s :: rest)) := by
  cases s with
  | func name params body l => cases plain
  | expr value l =>
    cases value with
    | func params body m => cases plain
    | _ => rfl
  | _ => rfl

/-- Other statements play no part in the table. -/
theorem extractable_cons_other {table : FunctionTable} {index : Nat} {s : Stmt} {ss : List Stmt}
    (plain : s.isDefinition = false) :
    Extractable table index (s :: ss) ↔ Extractable table index ss := by
  have other : ∀ name params body l, .func name params body l ≠ s := by
    rintro name params body l rfl
    cases plain
  constructor
  · rintro ⟨distinct, absent, unreserved⟩
    rw [definitions_cons_other plain] at distinct absent
    exact ⟨distinct, absent, fun name params body l member =>
      unreserved name params body l (List.mem_cons_of_mem _ member)⟩
  · rintro ⟨distinct, absent, unreserved⟩
    refine ⟨by rwa [definitions_cons_other plain], by rwa [definitions_cons_other plain],
      fun name params body l member => ?_⟩
    rcases List.mem_cons.mp member with equal | later
    · exact absurd equal (other name params body l)
    · exact unreserved name params body l later

/-- A definition joins the table first, and then the others join what it leaves. -/
theorem extractable_cons_definition {table : FunctionTable} {index next : Nat} {s : Stmt}
    {ss : List Stmt} {d : FunctionDef}
    (defines : Stmt.definitions index (s :: ss) = d :: Stmt.definitions next ss) :
    Extractable table index (s :: ss) ↔
      (∀ name params body l, s = .func name params body l → C.isReserved name = false) ∧
        d.name ∉ table.names ∧ Extractable ⟨table.definitions ++ [d]⟩ next ss := by
  have names : ∀ other : FunctionDef, other.name ∉ FunctionTable.names ⟨table.definitions ++ [d]⟩ ↔
      other.name ∉ table.names ∧ other.name ≠ d.name := by
    intro other
    simp [FunctionTable.names]
  constructor
  · rintro ⟨distinct, absent, unreserved⟩
    rw [defines] at distinct absent
    rw [List.map_cons, List.nodup_cons] at distinct
    refine ⟨fun name params body l same => unreserved name params body l (by simp [same]),
      absent d (by simp), distinct.2, fun other member => (names other).mpr ⟨?_, ?_⟩,
      fun name params body l member => unreserved name params body l (by simp [member])⟩
    · exact absent other (by simp [member])
    · intro same
      exact distinct.1 (same ▸ List.mem_map_of_mem member)
  · rintro ⟨unreserved, missing, distinct, absent, later⟩
    refine ⟨?_, ?_, fun name params body l member => ?_⟩
    · rw [defines, List.map_cons, List.nodup_cons]
      refine ⟨fun twice => ?_, distinct⟩
      obtain ⟨other, member, same⟩ := List.mem_map.mp twice
      exact ((names other).mp (absent other member)).2 same
    · rw [defines]
      intro other member
      rcases List.mem_cons.mp member with rfl | member
      · exact missing
      · exact ((names other).mp (absent other member)).1
    · rcases List.mem_cons.mp member with same | member
      · exact unreserved name params body l same.symm
      · exact later name params body l member

/-- Taking one definition out: its name is checked, and it is put at the end of
the table that the rest goes on with. -/
theorem extract_cons_definition_ok {table after : FunctionTable} {index : Nat} {s : Stmt}
    {ss rest : List Stmt} (definition : s.isDefinition = true) :
    ∃ d next, Stmt.definitions index (s :: ss) = d :: Stmt.definitions next ss ∧
      (extract table index (s :: ss) = .ok (after, rest) ↔
        (∀ name params body l, s = .func name params body l → C.isReserved name = false) ∧
          d.name ∉ table.names ∧
          extract ⟨table.definitions ++ [d]⟩ next ss = .ok (after, rest)) := by
  cases s with
  | func name params body l =>
    refine ⟨⟨name, params, body, l⟩, index, rfl, ?_⟩
    rw [extract]
    cases reserved : C.isReserved name with
    | true =>
      simp only [if_true, reduceCtorEq, false_iff]
      rintro ⟨unreserved, _⟩
      rw [unreserved name params body l rfl] at reserved
      cases reserved
    | false =>
      simp only [Bool.false_eq_true, if_false, bind_eq_ok, register_ok]
      constructor
      · rintro ⟨_, ⟨missing, rfl⟩, later⟩
        refine ⟨fun _ _ _ _ same => ?_, missing, later⟩
        cases same
        exact reserved
      · rintro ⟨_, missing, later⟩
        exact ⟨_, ⟨missing, rfl⟩, later⟩
  | expr value m =>
    cases value with
    | func params body l =>
      refine ⟨⟨anonymousName index, params, body, l⟩, index + 1, rfl, ?_⟩
      rw [extract]
      simp only [bind_eq_ok, register_ok]
      constructor
      · rintro ⟨_, ⟨missing, rfl⟩, later⟩
        exact ⟨fun _ _ _ _ same => (nomatch same), missing, later⟩
      · rintro ⟨_, missing, later⟩
        exact ⟨_, ⟨missing, rfl⟩, later⟩
    | _ => cases definition
  | _ => cases definition

/-- Extraction parts the statements into definitions and the rest, or refuses. -/
theorem extract_ok {table after : FunctionTable} {index : Nat} {ss rest : List Stmt} :
    extract table index ss = .ok (after, rest) ↔
      Extractable table index ss ∧
        after = ⟨table.definitions ++ Stmt.definitions index ss⟩ ∧
        rest = ss.filter fun s => !s.isDefinition := by
  induction ss generalizing table index after rest with
  | nil =>
    have always : Extractable table index [] :=
      ⟨by simp [Stmt.definitions], by simp [Stmt.definitions], by simp⟩
    rw [extract]
    simp only [always, Except.ok.injEq, Prod.mk.injEq, Stmt.definitions, List.append_nil,
      List.filter_nil, true_and]
    exact and_congr eq_comm eq_comm
  | cons s ss ih =>
    cases definition : s.isDefinition with
    | false =>
      rw [extract_cons_other definition, extractable_cons_other definition,
        definitions_cons_other definition]
      simp only [bind_eq_ok, List.filter_cons, definition, Bool.not_false, if_true]
      constructor
      · rintro ⟨⟨found, others⟩, later, same⟩
        cases same
        obtain ⟨joins, rfl, rfl⟩ := ih.mp later
        exact ⟨joins, rfl, rfl⟩
      · rintro ⟨joins, rfl, rfl⟩
        exact ⟨_, ih.mpr ⟨joins, rfl, rfl⟩, rfl⟩
    | true =>
      obtain ⟨d, next, defines, taken⟩ := extract_cons_definition_ok definition
      rw [taken, extractable_cons_definition defines, ih, defines]
      simp only [List.filter_cons, definition, Bool.not_true, Bool.false_eq_true, if_false,
        List.append_assoc, List.singleton_append, and_assoc]

theorem function_ok {table : FunctionTable} {d : FunctionDef} {f : C.Function} :
    function table d = .ok f ↔
      ∃ scopes codes final, parameters Scopes.empty.push d.location d.params = .ok scopes ∧
        statements ⟨table, true⟩ scopes d.body.statements = .ok (codes, final) ∧
        f = ⟨d.name, d.params,
          codes ++ if endsInReturn d.body.statements then [] else [.ret (.int 0)]⟩ := by
  unfold function
  simp only [bind_eq_ok]
  constructor
  · rintro ⟨scopes, declared, ⟨codes, final⟩, done, same⟩
    cases same
    exact ⟨scopes, codes, final, declared, done, rfl⟩
  · rintro ⟨scopes, codes, final, declared, done, rfl⟩
    exact ⟨scopes, declared, (codes, final), done, rfl⟩

theorem functions_ok {table : FunctionTable} {ds : List FunctionDef} {fs : List C.Function} :
    functions table ds = .ok fs ↔ List.Forall₂ (fun d f => function table d = .ok f) ds fs := by
  induction ds generalizing fs with
  | nil => cases fs <;> simp [functions]
  | cons d ds ih =>
    rw [functions]
    simp only [bind_eq_ok]
    constructor
    · rintro ⟨f, first, rest, later, same⟩
      cases same
      exact .cons first (ih.mp later)
    · intro all
      cases all with
      | cons first later => exact ⟨_, first, _, ih.mpr later, rfl⟩

theorem mainBody_ok {table : FunctionTable} {ss : List Stmt} {body : List C.Stmt} :
    mainBody table ss = .ok body ↔
      ∃ codes final, statements ⟨table, false⟩ Scopes.empty.push ss = .ok (codes, final) ∧
        body = codes ++ [.ret (.int 0)] := by
  unfold mainBody
  simp only [bind_eq_ok]
  constructor
  · rintro ⟨⟨codes, final⟩, done, same⟩
    cases same
    exact ⟨codes, final, done, rfl⟩
  · rintro ⟨codes, final, done, rfl⟩
    exact ⟨(codes, final), done, rfl⟩

end Generate

namespace Program

/-- The table that extraction leaves. -/
def table (p : Program) : FunctionTable := ⟨p.definitions⟩

/-- Accepted programs: their functions can be told apart, and each of them and
the main body are lowered with all of them in view. -/
theorem generate_ok {p : Program} {c : C.Code} :
    p.generate = .ok c ↔
      Generate.Extractable .empty 0 p.statements ∧
        List.Forall₂ (fun d f => Generate.function p.table d = .ok f) p.definitions c.functions ∧
        Generate.mainBody p.table p.mainStatements = .ok c.main := by
  have parted : ∀ table rest, Generate.extract .empty 0 p.statements = .ok (table, rest) ↔
      Generate.Extractable .empty 0 p.statements ∧ table = p.table ∧ rest = p.mainStatements :=
    fun table rest => Generate.extract_ok
  unfold generate
  cases found : Generate.extract .empty 0 p.statements with
  | error error =>
    simp only [reduceCtorEq, false_iff]
    rintro ⟨joins, _⟩
    rw [(parted p.table p.mainStatements).mpr ⟨joins, rfl, rfl⟩] at found
    cases found
  | ok result =>
    obtain ⟨table, rest⟩ := result
    obtain ⟨joins, rfl, rfl⟩ := (parted table rest).mp found
    simp only [bind_eq_ok, Generate.functions_ok, joins, true_and]
    constructor
    · rintro ⟨fs, lowered, main, done, same⟩
      cases same
      exact ⟨lowered, done⟩
    · rintro ⟨lowered, done⟩
      exact ⟨c.functions, lowered, c.main, done, rfl⟩

end Program

end ImpToC
