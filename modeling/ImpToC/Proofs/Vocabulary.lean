import ImpToC.Proofs.Rendering.RoundTrip

/-!
The vocabulary of the programs that are read. Nodes of a tree are its statements and
expressions at any depth. Whatever the text, and however much of it had to be left out, a node
names things by words that are no keyword, its integers have 64 bits and no sign, and its
strings have no quote. Nothing more can be said: each such name, integer and string is a text
of its own, and reading that text gives it back.
-/
namespace ImpToC

theorem Keyword.ofWord?_eq_none_iff (word : String) :
    ofWord? word = none ↔ ∀ k : Keyword, word ≠ k.spelling := by
  have listed (k : Keyword) : k ∈ all := by cases k <;> decide
  rw [ofWord?, List.find?_eq_none]
  constructor
  · intro other k same
    exact other k (listed k) (beq_iff_eq.mpr same.symm)
  · intro other k _ same
    exact other k (eq_of_beq same).symm

/-- What may be a name, with its letters and the words that are excepted spelled out. -/
theorem isName_iff (name : String) :
    IsName name ↔ name ≠ "" ∧
      (∀ c ∈ name.toList, 'a' ≤ c ∧ c ≤ 'z' ∨ 'A' ≤ c ∧ c ≤ 'Z' ∨ c = '_') ∧
      ∀ k : Keyword, name ≠ k.spelling := by
  have letter (c : Char) : Lexeme.isWordChar c = true ↔
      'a' ≤ c ∧ c ≤ 'z' ∨ 'A' ≤ c ∧ c ≤ 'Z' ∨ c = '_' := by
    simp [Lexeme.isWordChar, or_assoc]
  rw [IsName, IsWord, Keyword.ofWord?_eq_none_iff, and_assoc]
  simp only [letter, ne_eq, String.toList_eq_nil_iff]

namespace Program

/-- A statement or an expression in a tree. -/
inductive Node where
  | stmt (s : Stmt)
  | expr (e : Expr)

namespace Node

/-- The nodes next below. Those of a block are its statements. -/
def children : Node → List Node
  | stmt (.declare _ value _) | stmt (.ret value _) => value.toList.map expr
  | stmt (.assign _ value _) | stmt (.print value _) | stmt (.expr value _) => [expr value]
  | stmt (.branch condition consequence alternative _) =>
    expr condition :: (consequence.statements ++ alternative.toList.flatMap Block.statements).map stmt
  | stmt (.block body) | stmt (.func _ _ body _) | expr (.func _ body _) => body.statements.map stmt
  | expr (.binary _ left right _) => [expr left, expr right]
  | expr (.call callee args _) => expr callee :: args.map expr
  | stmt (.foreign _ _) | expr (.ident _ _) | expr (.int _ _) | expr (.str _ _) => []

/-- The names that a node gives itself: of variables, functions and parameters. -/
def names : Node → List String
  | stmt (.declare name _ _) | stmt (.assign name _ _) | stmt (.foreign name _) | expr (.ident name _) => [name]
  | stmt (.func name params _ _) => name :: params
  | expr (.func params _ _) => params
  | _ => []

def leaves : Node → List Leaf
  | stmt s => s.leaves
  | expr e => e.leaves

theorem name_mem_leaves {node : Node} {name : String} (named : name ∈ node.names) : .name name ∈ node.leaves := by
  cases node with
  | stmt s => cases s <;> simp_all [names, leaves, Stmt.leaves, ← or_assoc]
  | expr e => cases e <;> simp_all [names, leaves, Expr.leaves]

/-- What a node spells out is spelled out by the one above it. -/
theorem leaves_of_child {node child : Node} (member : child ∈ node.children) {leaf : Leaf}
    (inside : leaf ∈ child.leaves) : leaf ∈ node.leaves := by
  have among {body : Block} (member : child ∈ body.statements.map stmt) : leaf ∈ body.leaves := by
    obtain ⟨s, listed, rfl⟩ := List.mem_map.mp member
    exact Block.leaves_of_mem listed inside
  have given {value : Option Expr} (member : child ∈ value.toList.map expr) :
      leaf ∈ Expr.leavesOfOption value := by
    obtain ⟨e, present, rfl⟩ := List.mem_map.mp member
    obtain rfl := Option.mem_toList.mp present
    exact inside
  cases node with
  | stmt s =>
    cases s with
    | declare name value l => exact List.mem_cons_of_mem _ (given member)
    | ret value l => exact given member
    | assign name value l =>
      obtain rfl := List.mem_singleton.mp member
      exact List.mem_cons_of_mem _ inside
    | print value l | expr value l =>
      obtain rfl := List.mem_singleton.mp member
      exact inside
    | branch condition consequence alternative l =>
      rw [children, List.map_append, List.mem_cons, List.mem_append] at member
      rw [leaves, Stmt.leaves, List.mem_append, List.mem_append]
      rcases member with rfl | taken | untaken
      · exact .inl (.inl inside)
      · exact .inl (.inr (among taken))
      · cases alternative with
        | none => cases untaken
        | some body =>
          rw [Option.toList_some, List.flatMap_singleton] at untaken
          exact .inr (among untaken)
    | block body => exact among member
    | foreign name l => cases member
    | func name params body l => exact List.mem_cons_of_mem _ (List.mem_append_right _ (among member))
  | expr e =>
    cases e with
    | ident name l | int value l | str text l => cases member
    | binary op left right l =>
      rw [children, List.mem_cons, List.mem_singleton] at member
      rw [leaves, Expr.leaves, List.mem_append]
      rcases member with rfl | rfl
      · exact .inl inside
      · exact .inr inside
    | call callee args l =>
      rw [children, List.mem_cons] at member
      rw [leaves, Expr.leaves, List.mem_append, List.mem_append]
      -- A callee that is a name is listed once more in front, which plays no part here.
      rcases member with rfl | argument
      · exact .inl (.inr inside)
      · obtain ⟨e, listed, rfl⟩ := List.mem_map.mp argument
        exact .inr (Expr.mem_leavesOfAll.mpr ⟨e, listed, inside⟩)
    | func params body l => exact List.mem_append_right _ (among member)

end Node

/-- A node stands in a program, at the top or below another one. -/
inductive Occurs (p : Program) : Node → Prop where
  | top {s : Stmt} (member : s ∈ p.statements) : Occurs p (.stmt s)
  | under {node child : Node} (above : Occurs p node) (member : child ∈ node.children) : Occurs p child

theorem Occurs.leaves {p : Program} {node : Node} (occurs : Occurs p node) :
    ∀ leaf ∈ node.leaves, leaf ∈ p.leaves := by
  induction occurs with
  | top member => exact fun leaf inside => Stmt.mem_leavesOfAll.mpr ⟨_, member, inside⟩
  | under _ member ih => exact fun leaf inside => ih leaf (Node.leaves_of_child member inside)

theorem Occurs.readable {source : String} {node : Node} (occurs : Occurs (read source).1 node) (leaf : Leaf)
    (inside : leaf ∈ node.leaves) : leaf.Readable :=
  read_readable source leaf (occurs.leaves leaf inside)

section Texts

open Parse Rendering

/-- A text that is nothing but one operand is read as the statement that consists of it. -/
theorem exists_occurs_operand {s : Shape} {e : Location → Expr} (legible : s.Legible)
    (kind : s.kind = .ident ∨ s.kind = .int ∨ s.kind = .string)
    (read : ∀ final l, (operand final 0 [s.token l]).Reads (e l) (s.token l) []) :
    ∃ source l, Occurs (Program.read source).1 (.expr (e l)) := by
  -- The text has a blank in front of the operand, and none behind it.
  have placed : Placed [s] (Tokens.ofText (String.ofList (line [s]))).list :=
    Tokens.scan_spaced .start (spaced_line String.toList_ofList) (List.forall_mem_singleton.mpr legible)
  obtain ⟨l, rest, tokens, nothing⟩ := placed.cons
  obtain rfl := nothing.nil
  have bare : Bare (s.token l) [] := by
    refine ⟨?_, by simp⟩
    change s.kind ∉ _
    rcases kind with kind | kind | kind <;> simp [kind]
  have found (final : Token) : program final [s.token l] = ([.expr (e l) l], []) := by
    have whole : (expression final 0 .lowest [s.token l]).Reads (e l) (s.token l) [] :=
      (expression_eq_climb (read final l)).trans (climb_stops (Nat.zero_le _))
    have kept : (statement final 0 [s.token l]).Reads (.expr (e l) l) (s.token l) [] := by
      rw [statement_bare bare, bareExpression]
      exact whole.andThen fun _ => rfl
    rw [program_of_parsed kept, program]
    rfl
  refine ⟨String.ofList (line [s]), l, ?_⟩
  rw [Program.read, tokens, found]
  exact .under (.top (List.mem_singleton.mpr rfl)) (List.mem_singleton.mpr rfl)

theorem exists_occurs_ident {name : String} (isName : IsName name) :
    ∃ source l, Occurs (read source).1 (.expr (.ident name l)) := by
  refine exists_occurs_operand (legible_name.mpr isName) (.inl rfl) fun final l => ?_
  rw [operand.eq_def]
  rfl

theorem exists_occurs_int {value : Int} (unsigned : 0 ≤ value) (fits : value < 2 ^ 63) :
    ∃ source l, Occurs (read source).1 (.expr (.int value l)) := by
  obtain ⟨n, rfl⟩ := Int.eq_ofNat_of_zero_le unsigned
  have digits := numeral_toString n
  have legible : (Shape.number (toString n)).Legible := ⟨digits.1, digits.2.1⟩
  refine exists_occurs_operand legible (.inr (.inl rfl)) fun final l => ?_
  rw [operand.eq_def]
  dsimp only [Shape.token, Shape.number]
  rw [integer?_of_numeral digits fits]
  rfl

theorem exists_occurs_str {text : String} (unquoted : '"' ∉ text.toList) :
    ∃ source l, Occurs (read source).1 (.expr (.str text l)) := by
  have legible : (Shape.text text).Legible := unquoted
  refine exists_occurs_operand legible (.inr (.inr rfl)) fun final l => ?_
  rw [operand.eq_def]
  rfl

end Texts

/-- What can stand in a program, whatever text it was read from and whether or not there were
diagnostics. The names of variables, functions, externals and parameters, and all identifiers,
are words of letters and underscores that are no keyword; integers go from zero to the largest
one of 64 bits with a sign; a string has no quote. Each of these does occur. -/
theorem read_vocabulary :
    (∀ name : String, (∃ source node, Occurs (read source).1 node ∧ name ∈ node.names) ↔
      name ≠ "" ∧ (∀ c ∈ name.toList, 'a' ≤ c ∧ c ≤ 'z' ∨ 'A' ≤ c ∧ c ≤ 'Z' ∨ c = '_') ∧
        ∀ k : Keyword, name ≠ k.spelling) ∧
    (∀ value : Int, (∃ source l, Occurs (read source).1 (.expr (.int value l))) ↔
      0 ≤ value ∧ value ≤ 2 ^ 63 - 1) ∧
    ∀ text : String, (∃ source l, Occurs (read source).1 (.expr (.str text l))) ↔ '"' ∉ text.toList := by
  refine ⟨fun name => ?_, fun value => ?_, fun text => ?_⟩
  · rw [← isName_iff]
    constructor
    · rintro ⟨source, node, occurs, named⟩
      exact occurs.readable _ (Node.name_mem_leaves named)
    · intro isName
      obtain ⟨source, l, occurs⟩ := exists_occurs_ident isName
      exact ⟨source, _, occurs, List.mem_singleton.mpr rfl⟩
  · rw [Int.le_sub_one_iff]
    constructor
    · rintro ⟨source, l, occurs⟩
      exact occurs.readable (.int value) (List.mem_singleton.mpr rfl)
    · rintro ⟨unsigned, fits⟩
      exact exists_occurs_int unsigned fits
  · constructor
    · rintro ⟨source, l, occurs⟩
      exact occurs.readable (.str text) (List.mem_singleton.mpr rfl)
    · exact exists_occurs_str

end Program

end ImpToC
