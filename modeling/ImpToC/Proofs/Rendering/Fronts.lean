import ImpToC.Proofs.Rendering.Scanning

/-!
How phrases begin, and what may stand behind them. Statements are told apart by their
first two tokens, and a statement without a semicolon ends where the next token cannot
belong to it, so these decide what the parser does.
-/
namespace ImpToC

/-- What can be written down and read back: names that are no keyword and not `else`,
integers of 64 bits that have no sign, and strings without a quote. -/
def Leaf.Plain : Leaf → Prop
  | .name word | .callee word => IsName word ∧ word ≠ "else"
  | .int value => 0 ≤ value ∧ value < 2 ^ 63
  | .str text => '"' ∉ text.toList

instance (leaf : Leaf) : Decidable leaf.Plain :=
  match leaf with
  | .name _ | .callee _ => inferInstanceAs (Decidable (_ ∧ _))
  | .int _ => inferInstanceAs (Decidable (_ ∧ _))
  | .str _ => inferInstanceAs (Decidable (_ ∉ _))

namespace Rendering

open Parse

/-- What stands here does not make an assignment of what stands before it. -/
def NoAssign (next : List Shape) : Prop := ∀ s, next.head? = some s → s.kind ≠ .symbol .assign

/-- How an expression begins, with what stands behind it. A name at its front is not
assigned to, and a function at its front has no name. -/
inductive Opening : List Shape → Prop where
  | name {word : String} {next : List Shape} (free : word ≠ "else") (used : NoAssign next) :
      Opening (.name word :: next)
  | number {digits : String} {next : List Shape} : Opening (.number digits :: next)
  | text {body : String} {next : List Shape} : Opening (.text body :: next)
  | paren {next : List Shape} : Opening (.symbol .leftParen :: next)
  | lambda {next : List Shape} : Opening (.keyword .func :: .symbol .leftParen :: next)

/-- Whether a statement can begin so. -/
def Shape.opensStatement (s : Shape) : Bool :=
  match s.kind with
  | .ident => s.literal != "else"
  | .int | .string | .keyword _ | .symbol .leftParen | .symbol .leftBrace => true
  | _ => false

/-- Two symbols can open a statement. -/
theorem Shape.kind_ne_of_opensStatement {s : Shape} {x : Symbol} (opens : s.opensStatement = true)
    (paren : x ≠ .leftParen) (brace : x ≠ .leftBrace) : s.kind ≠ .symbol x := by
  intro kind
  rw [Shape.opensStatement, kind] at opens
  cases x <;> contradiction

theorem Opening.opensStatement {s : Shape} {next : List Shape} (opening : Opening (s :: next)) :
    s.opensStatement = true := by
  cases opening with
  | name free => exact bne_iff_ne.mpr free
  | _ => rfl

def Phrase.leaves : Phrase → List Leaf
  | .expr _ e => e.leaves
  | .args es => Expr.leavesOfAll es
  | .stmt _ s => s.leaves
  | .stmts ss => Stmt.leavesOfAll ss

/-- What the front of a phrase tells. -/
def Phrase.Opens : Phrase → List Shape → Prop
  | .expr _ _, shapes => ∀ rest, NoAssign rest → Opening (shapes ++ rest)
  | .args [], shapes => shapes = []
  | .args (_ :: _), shapes => Opening shapes
  | .stmt _ _, shapes => ∃ s rest, shapes = s :: rest ∧ s.opensStatement = true
  | .stmts _, shapes => ∀ s, shapes.head? = some s → s.opensStatement = true

theorem noAssign_symbol {x : Symbol} {rest : List Shape} (other : x ≠ .assign) :
    NoAssign (.symbol x :: rest) := by
  rintro s ⟨⟩ kind
  exact other (Token.Kind.symbol.inj kind)

theorem noAssign_semicolon (kept : Bool) : NoAssign (semicolon kept) := by
  cases kept with
  | true => exact noAssign_symbol nofun
  | false => exact nofun

theorem Derives.opens {φ : Phrase} {shapes : List Shape} (derived : Derives φ shapes) :
    (∀ leaf ∈ φ.leaves, leaf.Plain) → φ.Opens shapes := by
  induction derived with
  | ident =>
    intro plain rest used
    exact .name (plain (.name _) (List.mem_singleton.mpr rfl)).2 used
  | number => exact fun _ _ _ => .number
  | text => exact fun _ _ _ => .text
  | paren => exact fun _ _ _ => .paren
  | lambda => exact fun _ _ _ => .lambda
  | @call callee args l fs ts function given ih =>
    intro plain rest used
    rw [List.append_assoc]
    refine ih (fun leaf member => plain leaf ?_) _ (noAssign_symbol nofun)
    exact List.mem_append_left _ (List.mem_append_right _ member)
  | @binary op left right l ls rs first second ih =>
    intro plain rest used
    rw [List.append_assoc]
    refine ih (fun leaf member => plain leaf (List.mem_append_left _ member)) _ (noAssign_symbol ?_)
    cases op <;> decide
  | tighter tight ih => exact ih
  | none => exact fun _ => rfl
  | last only ih =>
    intro plain
    have opening := ih (fun leaf member => plain leaf (List.mem_append_left _ member)) [] nofun
    rwa [List.append_nil] at opening
  | more first others ih =>
    intro plain
    exact ih (fun leaf member => plain leaf (List.mem_append_left _ member)) _ (noAssign_symbol nofun)
  | assign kept given =>
    intro plain
    refine ⟨_, _, rfl, ?_⟩
    exact bne_iff_ne.mpr (plain (.name _) List.mem_cons_self).2
  | @expr value l ts kept given ih =>
    intro plain
    have opening := ih plain (semicolon kept) (noAssign_semicolon kept)
    cases front : ts ++ semicolon kept with
    | nil =>
      rw [front] at opening
      cases opening
    | cons s rest =>
      rw [front] at opening
      exact ⟨s, rest, rfl, opening.opensStatement⟩
  | nil => exact fun _ _ => nofun
  | cons first others allowed ih =>
    intro plain s' front
    obtain ⟨s, rest, rfl, opens⟩ := ih fun leaf member => plain leaf (List.mem_append_left _ member)
    cases front
    exact opens
  | _ => exact fun _ => ⟨_, _, rfl, rfl⟩

/-- What may stand behind a statement: the end of its block, or another statement that
its ending allows. -/
def Follows (ending : Ending) (rest : List Token) : Prop :=
  ∀ t, rest.head? = some t → t.kind = .symbol .rightBrace ∨
    t.shape.opensStatement = true ∧ ending ≠ .bare ∧
      (ending = .expression → t.kind ≠ .symbol .leftParen)

section Following

variable {ending : Ending} {rest : List Token}

/-- Few symbols may follow a statement. -/
theorem Follows.kind_ne {x : Symbol} (follows : Follows ending rest) (paren : x ≠ .leftParen)
    (opening : x ≠ .leftBrace) (closing : x ≠ .rightBrace) :
    ∀ t, rest.head? = some t → t.kind ≠ .symbol x := by
  intro t first kind
  rcases follows t first with brace | ⟨opens, _⟩
  · exact closing (Token.Kind.symbol.inj (kind.symm.trans brace))
  · exact Shape.kind_ne_of_opensStatement opens paren opening kind

theorem Follows.not_semicolon (follows : Follows ending rest) :
    ∀ t, rest.head? = some t → t.kind ≠ .symbol .semicolon :=
  follows.kind_ne nofun nofun nofun

theorem Follows.not_else (follows : Follows ending rest) :
    ∀ t, rest.head? = some t → ¬ (t.kind = .ident ∧ t.literal = "else") := by
  rintro t first ⟨kind, word⟩
  rcases follows t first with brace | ⟨opens, _⟩
  · rw [kind] at brace
    cases brace
  · change Shape.opensStatement ⟨t.kind, t.literal⟩ = true at opens
    rw [kind, word] at opens
    cases opens

theorem Follows.noAssign (follows : Follows ending rest) : NoAssign (rest.map Token.shape) := by
  intro s first
  rw [List.head?_map, Option.map_eq_some_iff] at first
  obtain ⟨t, first, rfl⟩ := first
  exact follows.kind_ne (x := .assign) nofun nofun nofun t first

/-- Nothing that may follow an expression is taken for a part of it. -/
theorem Follows.binding (follows : Follows .expression rest) : binding rest = 0 := by
  cases rest with
  | nil => rfl
  | cons t rest =>
    rw [Parse.binding]
    rcases follows t rfl with brace | ⟨opens, _, paren⟩
    · rw [brace]
      rfl
    · have alone := paren rfl
      obtain ⟨kind, literal, m⟩ := t
      cases kind with
      | symbol x => cases x <;> first | rfl | exact absurd rfl alone | cases opens
      | _ => rfl

/-- What an ending allows may follow it, and so may the end of the block. -/
theorem follows_of_allows {ss : List Stmt} {us : List Shape} {ts : List Token} (allowed : ending.Allows us)
    (opens : (Phrase.stmts ss).Opens us) (placed : Placed us ts)
    (closes : ∀ t, rest.head? = some t → t.kind = .symbol .rightBrace) : Follows ending (ts ++ rest) := by
  intro t first
  cases ts with
  | nil => exact .inl (closes t first)
  | cons t' ts =>
    cases first
    subst placed
    refine .inr ⟨opens t.shape rfl, ?_, ?_⟩
    · rintro rfl
      cases allowed
    · rintro rfl
      exact allowed t.shape rfl

end Following

end Rendering

end ImpToC
