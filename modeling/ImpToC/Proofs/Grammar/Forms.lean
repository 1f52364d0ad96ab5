import ImpToC.Parse

/-!
How a statement is recognised, and what the loop over statements does with it. The first
token settles its form, but for names and functions, where the second one is looked at
too; whatever begins in no other way is an expression.
-/
namespace ImpToC

namespace Parse

/-- The tokens begin like no statement but an expression. -/
def Bare (t : Token) (tail : List Token) : Prop :=
  t.kind ∉ [.keyword .var, .keyword .print, .keyword .cond, .keyword .foreign, .keyword .ret,
    .symbol .leftBrace] ∧
  ∀ next, tail.head? = some next →
    ¬ (t.kind = .keyword .func ∧ next.kind = .ident) ∧ ¬ (t.kind = .ident ∧ next.kind = .symbol .assign)

/-- The ways in which a statement begins. -/
inductive Begins (t : Token) : List Token → Prop where
  | var {tail : List Token} (keyword : t.kind = .keyword .var) : Begins t tail
  | print {tail : List Token} (keyword : t.kind = .keyword .print) : Begins t tail
  | cond {tail : List Token} (keyword : t.kind = .keyword .cond) : Begins t tail
  | foreign {tail : List Token} (keyword : t.kind = .keyword .foreign) : Begins t tail
  | ret {tail : List Token} (keyword : t.kind = .keyword .ret) : Begins t tail
  | block {tail : List Token} (opens : t.kind = .symbol .leftBrace) : Begins t tail
  | func {next : Token} {rest : List Token} (keyword : t.kind = .keyword .func) (named : next.kind = .ident) :
      Begins t (next :: rest)
  | assign {next : Token} {rest : List Token} (named : t.kind = .ident)
      (assigns : next.kind = .symbol .assign) : Begins t (next :: rest)
  | bare {tail : List Token} (other : Bare t tail) : Begins t tail

theorem begins (t : Token) (tail : List Token) : Begins t tail := by
  by_cases single : t.kind ∈ [.keyword .var, .keyword .print, .keyword .cond, .keyword .foreign, .keyword .ret,
    .symbol .leftBrace]
  · simp only [List.mem_cons, List.not_mem_nil, or_false] at single
    rcases single with keyword | keyword | keyword | keyword | keyword | opens
    · exact .var keyword
    · exact .print keyword
    · exact .cond keyword
    · exact .foreign keyword
    · exact .ret keyword
    · exact .block opens
  · cases tail with
    | nil => exact .bare ⟨single, by simp⟩
    | cons next rest =>
      by_cases defines : t.kind = .keyword .func ∧ next.kind = .ident
      · exact .func defines.1 defines.2
      · by_cases assigns : t.kind = .ident ∧ next.kind = .symbol .assign
        · exact .assign assigns.1 assigns.2
        · refine .bare ⟨single, fun u first => ?_⟩
          obtain rfl : next = u := Option.some.inj first
          exact ⟨defines, assigns⟩

theorem statement_bare {t : Token} {tail : List Token} (bare : Bare t tail) (final : Token) (depth : Nat) :
    statement final depth (t :: tail) = bareExpression final depth t tail := by
  obtain ⟨single, pair⟩ := bare
  simp only [List.mem_cons, List.not_mem_nil, or_false, not_or] at single
  obtain ⟨noVar, noPrint, noCond, noForeign, noRet, noBrace⟩ := single
  rw [statement.eq_def]
  dsimp only
  split
  · exact absurd ‹_› noVar
  · exact absurd ‹_› noPrint
  · exact absurd ‹_› noCond
  · exact absurd ‹_› noForeign
  · exact absurd ‹_› noRet
  · exact absurd ‹_› noBrace
  · cases tail with
    | nil => rfl
    | cons next rest =>
      obtain ⟨defines, assigns⟩ := pair next rfl
      dsimp only
      rw [if_neg defines, if_neg assigns]

section Loop

theorem Scan.suffix_of_parsed {α : Type} {input : List Token} {s : Scan α input} {recorded : List Diagnostic}
    {value : α} {last : Token} {rest : List Token} (read : s.val = ⟨recorded, .parsed value last rest⟩) :
    last :: rest <:+ input := by
  have within := s.property
  rwa [read] at within

theorem Scan.suffix_of_failed {α : Type} {input : List Token} {s : Scan α input} {recorded : List Diagnostic}
    {error : Diagnostic} {resume : List Token} (read : s.val = ⟨recorded, .failed error resume⟩) :
    resume <:+ input := by
  have within := s.property
  rwa [read] at within

variable {final t : Token} {tail : List Token} {recorded : List Diagnostic}

/-- A statement that was read is kept, with what was recorded inside it. -/
theorem program_of_parsed {s : Stmt} {last : Token} {rest : List Token}
    (read : (statement final 0 (t :: tail)).val = ⟨recorded, .parsed s last rest⟩) :
    program final (t :: tail) = (s :: (program final rest).1, recorded ++ (program final rest).2) := by
  rw [program]
  split
  · next found =>
    rw [found] at read
    cases read
    rfl
  · next found =>
    rw [found] at read
    cases read

/-- A statement that failed leaves its diagnostic, and reading goes on where recovery ends. -/
theorem program_of_failed {error : Diagnostic} {resume : List Token}
    (read : (statement final 0 (t :: tail)).val = ⟨recorded, .failed error resume⟩) :
    program final (t :: tail) =
      ((program final (recover 0 resume)).1, recorded ++ error :: (program final (recover 0 resume)).2) := by
  rw [program]
  split
  · next found =>
    rw [found] at read
    cases read
  · next found =>
    rw [found] at read
    cases read
    rfl

@[simp] theorem program_nil : program final [] = ([], []) := by rw [program]

end Loop

end Parse

theorem Program.read_of_parse {source : String} {p : Program} (parsed : Program.parse source = .ok p) :
    Program.read source = (p, []) := by
  unfold Program.parse at parsed
  split at parsed
  · next found =>
    cases parsed
    exact found
  · cases parsed

end ImpToC
