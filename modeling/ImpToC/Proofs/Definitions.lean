import ImpToC.Compile
import ImpToC.Proofs.Extraction
import ImpToC.Proofs.Spelling

/-!
Where the functions of a program come from. Each of them is a statement at the top
level, so what it spells out is spelled out by the program; and a function without a
name gets one that no word of a program is.
-/
namespace ImpToC

/-- The names given to functions without one hold a digit, so no word is one of them. -/
theorem Generate.anonymousName_not_isWord (index : Nat) : ¬ IsWord (anonymousName index) := by
  rintro ⟨_, letters⟩
  obtain ⟨c, digits, parted⟩ := List.exists_cons_of_ne_nil (Nat.toDigits_ne_nil (n := index) (b := 10))
  have member : c ∈ Nat.toDigits 10 index := by simp [parted]
  have digit : Lexeme.isDigit c = true := Nat.isDigit_of_mem_toDigits (by decide) (by decide) member
  have inside : c ∈ (anonymousName index).toList := by
    rw [anonymousName, Nat.toString_eq_repr, Nat.repr_eq_ofList_toDigits, String.toList_append]
    exact List.mem_append_right _ (by rwa [String.toList_ofList])
  have letter := letters c inside
  rw [Lexeme.isWordChar_of_isDigit digit] at letter
  cases letter

/-- No word is a name that the generator gives. -/
theorem IsWord.ne_anonymousName {name : String} (word : IsWord name) (index : Nat) :
    name ≠ Generate.anonymousName index := by
  rintro rfl
  exact Generate.anonymousName_not_isWord index word

/-- The statement that defines a function, by name or without one. -/
def FunctionDef.From (d : FunctionDef) (s : Stmt) : Prop :=
  s = .func d.name d.params d.body d.location ∨
    ∃ index m, d.name = Generate.anonymousName index ∧ s = .expr (.func d.params d.body d.location) m

theorem Stmt.mem_definitions {d : FunctionDef} {index : Nat} {ss : List Stmt}
    (member : d ∈ Stmt.definitions index ss) : ∃ s ∈ ss, d.From s := by
  induction ss generalizing index with
  | nil => cases member
  | cons s ss ih =>
    have later : ∀ index, d ∈ Stmt.definitions index ss → ∃ t ∈ s :: ss, d.From t := by
      intro index inside
      obtain ⟨t, among, origin⟩ := ih inside
      exact ⟨t, List.mem_cons_of_mem _ among, origin⟩
    cases definition : s.isDefinition with
    | false =>
      rw [Generate.definitions_cons_other definition] at member
      exact later index member
    | true =>
      cases s with
      | func name params body l =>
        rcases List.mem_cons.mp member with rfl | inside
        · exact ⟨_, by simp, .inl rfl⟩
        · exact later index inside
      | expr value m =>
        cases value with
        | func params body l =>
          rcases List.mem_cons.mp member with rfl | inside
          · exact ⟨_, by simp, .inr ⟨index, m, rfl, rfl⟩⟩
          · exact later (index + 1) inside
        | _ => cases definition
      | _ => cases definition

/-- What a function spells out, its name among it. -/
def FunctionDef.leaves (d : FunctionDef) : List Leaf :=
  .name d.name :: (d.params.map .name ++ d.body.leaves)

/-- Calls are in a function or in the main body. -/
theorem Stmt.mem_callees_parted (name : String) (index : Nat) (ss : List Stmt) :
    .callee name ∈ (Stmt.definitions index ss).flatMap FunctionDef.leaves ++
        Stmt.leavesOfAll (ss.filter fun s => !s.isDefinition) ↔
      .callee name ∈ Stmt.leavesOfAll ss := by
  induction ss generalizing index with
  | nil => rfl
  | cons s ss ih =>
    simp only [List.mem_append] at ih ⊢
    cases definition : s.isDefinition with
    | false =>
      rw [Generate.definitions_cons_other definition, List.filter_cons_of_pos (by simp [definition]),
        Stmt.leavesOfAll, Stmt.leavesOfAll, List.mem_append, List.mem_append, ← ih index]
      exact or_left_comm
    | true =>
      rw [List.filter_cons_of_neg (by simp [definition]), Stmt.leavesOfAll, List.mem_append]
      cases s with
      | func name params body l =>
        rw [← ih index, ← or_assoc, Stmt.definitions, List.flatMap_cons, List.mem_append]
        simp [FunctionDef.leaves, Stmt.leaves]
      | expr value m =>
        cases value with
        | func params body l =>
          rw [← ih (index + 1), ← or_assoc, Stmt.definitions, List.flatMap_cons, List.mem_append]
          simp [FunctionDef.leaves, Stmt.leaves, Expr.leaves]
        | _ => cases definition
      | _ => cases definition

namespace Program

variable {p : Program} {d : FunctionDef}

/-- What a function spells out after its name, the program spells out. -/
theorem leaves_of_definition (member : d ∈ p.definitions) {leaf : Leaf}
    (inside : leaf ∈ d.params.map Leaf.name ++ d.body.leaves) : leaf ∈ p.leaves := by
  obtain ⟨s, among, origin⟩ := Stmt.mem_definitions member
  refine Stmt.mem_leavesOfAll.mpr ⟨s, among, ?_⟩
  rcases origin with rfl | ⟨index, m, _, rfl⟩
  · rw [Stmt.leaves]
    exact List.mem_cons_of_mem _ inside
  · exact inside

/-- A function has a name of the program, or one that was given to it. -/
theorem name_of_definition (member : d ∈ p.definitions) :
    (.name d.name ∈ p.leaves ∧ .func d.name d.params d.body d.location ∈ p.statements) ∨
      ∃ index, d.name = Generate.anonymousName index := by
  obtain ⟨s, among, origin⟩ := Stmt.mem_definitions member
  rcases origin with rfl | ⟨index, _, named, _⟩
  · exact .inl ⟨Stmt.mem_leavesOfAll.mpr ⟨_, among, by simp [Stmt.leaves]⟩, among⟩
  · exact .inr ⟨index, named⟩

end Program

/-- Text is given only for programs that are read and generated. -/
theorem compile_eq_ok {source text : String} :
    compile source = .ok text ↔
      ∃ p c, Program.parse source = .ok p ∧ p.generate = .ok c ∧ c.render = text := by
  unfold compile Generator.run
  cases Program.parse source with
  | error diagnostics => simp
  | ok p => cases generated : p.generate <;> simp [generated]

end ImpToC
