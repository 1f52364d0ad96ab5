import ImpToC.Proofs.Rendering.Parsing
import ImpToC.Proofs.Rendering.Tokens

/-!
Reading undoes writing. A program that spells out nothing unusual can be written, and
however it is written, with more parentheses than it needs and with or without the
semicolons that may be left out, reading the text gives the program back.
-/
namespace ImpToC

namespace Rendering

/-- Every token of a list can be read back from its spelling. -/
def Legible (shapes : List Shape) : Prop := ∀ s ∈ shapes, s.Legible

@[simp] theorem legible_nil : Legible [] := nofun

@[simp] theorem legible_cons {s : Shape} {shapes : List Shape} :
    Legible (s :: shapes) ↔ s.Legible ∧ Legible shapes := List.forall_mem_cons

@[simp] theorem legible_append {first second : List Shape} :
    Legible (first ++ second) ↔ Legible first ∧ Legible second := List.forall_mem_append

@[simp] theorem legible_symbol (x : Symbol) : (Shape.symbol x).Legible := rfl

@[simp] theorem legible_keyword (k : Keyword) : (Shape.keyword k).Legible := rfl

@[simp] theorem legible_name {word : String} : (Shape.name word).Legible ↔ IsName word := Iff.rfl

@[simp] theorem legible_semicolon (kept : Bool) : Legible (semicolon kept) := by
  cases kept <;> simp [semicolon]

@[simp] theorem legible_braced {shapes : List Shape} : Legible (braced shapes) ↔ Legible shapes := by
  simp [braced]

theorem legible_parameters {words : List String} (plain : ∀ leaf ∈ words.map Leaf.name, leaf.Plain) :
    Legible (parameters words) := by
  have listed : Legible (names words) := by
    fun_induction names words with
    | case1 => exact legible_nil
    | case2 word => simpa using (plain (.name word) (by simp)).1
    | case3 word other words ih =>
      have first := (plain (.name word) (by simp)).1
      have others := ih fun leaf member => plain leaf (List.mem_cons_of_mem _ member)
      simp [first, others]
  simp [parameters, listed]

/-- Whatever the grammar derives for a plain phrase can be read token by token. -/
theorem Derives.legible {φ : Phrase} {shapes : List Shape} (derived : Derives φ shapes) :
    (∀ leaf ∈ φ.leaves, leaf.Plain) → Legible shapes := by
  induction derived with
  | number read => exact fun _ => legible_cons.mpr ⟨⟨read.1, read.2.1⟩, legible_nil⟩
  | @text body l =>
    exact fun plain => legible_cons.mpr ⟨plain (.str body) (List.mem_singleton.mpr rfl), legible_nil⟩
  | lambda _ ih =>
    intro plain
    obtain ⟨params, inside⟩ := List.forall_mem_append.mp plain
    simp [legible_parameters params, ih inside]
  | func _ ih =>
    intro plain
    obtain ⟨name, others⟩ := List.forall_mem_cons.mp plain
    obtain ⟨params, inside⟩ := List.forall_mem_append.mp others
    simp [name.1, legible_parameters params, ih inside]
  | choice _ _ _ ih ih' ih'' =>
    intro plain
    obtain ⟨both, untaken⟩ := List.forall_mem_append.mp plain
    obtain ⟨test, taken⟩ := List.forall_mem_append.mp both
    have word : IsName "else" := by decide
    simp [ih test, ih' taken, ih'' untaken, word]
  | _ =>
    simp_all [Phrase.leaves, Expr.leaves, Expr.leavesOfAll, Expr.leavesOfOption, Stmt.leaves,
      Stmt.leavesOfAll, Block.leaves, Leaf.Plain, or_imp, forall_and]

/-- What binds tightly may stand where less is asked for. -/
theorem Derives.loosen {level higher : Nat} {e : Expr} {shapes : List Shape}
    (tight : Derives (.expr higher e) shapes) (le : level ≤ higher) : Derives (.expr level e) shapes := by
  induction le with
  | refl => exact tight
  | step _ ih => exact ih (.tighter tight)

theorem numeral_toString (n : Nat) : Numeral (toString n) n := by
  rw [Numeral, Nat.toString_eq_repr, Nat.repr_eq_ofList_toDigits, String.toList_ofList]
  refine ⟨Nat.toDigits_ne_nil, fun c member => ?_, Nat.ofDigitChars_toDigits (by decide) (by decide)⟩
  have digit := Nat.isDigit_of_mem_toDigits (by decide) (by decide) member
  rw [Lexeme.isDigit_iff]
  exact Char.isDigit_iff_toNat.mp digit

mutual

/-- Every expression can be written: operations in parentheses, and all else as it is. -/
theorem exists_derives_expr (e : Expr) (plain : ∀ leaf ∈ e.leaves, leaf.Plain) :
    ∃ shapes, Derives (.expr 4 e) shapes := by
  match e with
  | .ident _ _ => exact ⟨_, .ident⟩
  | .int value _ =>
    obtain ⟨n, rfl⟩ := Int.eq_ofNat_of_zero_le (plain (.int value) (List.mem_singleton.mpr rfl)).1
    exact ⟨_, .number (numeral_toString n)⟩
  | .str _ _ => exact ⟨_, .text⟩
  | .binary op left right l =>
    obtain ⟨before, behind⟩ := List.forall_mem_append.mp plain
    obtain ⟨ls, first⟩ := exists_derives_expr left before
    obtain ⟨rs, second⟩ := exists_derives_expr right behind
    have low : 1 ≤ precedence op := by cases op <;> decide
    have high : precedence op + 1 ≤ 4 := by cases op <;> decide
    have whole := Derives.binary (l := l) (first.loosen (by omega)) (second.loosen high)
    exact ⟨_, .paren (whole.loosen low)⟩
  | .call callee args _ =>
    obtain ⟨function, given⟩ := List.forall_mem_append.mp plain
    obtain ⟨fs, called⟩ := exists_derives_expr callee (List.forall_mem_append.mp function).2
    obtain ⟨ts, listed⟩ := exists_derives_args args given
    exact ⟨_, .call called listed⟩
  | .func params (.mk body _) _ =>
    obtain ⟨_, inside⟩ := List.forall_mem_append.mp plain
    obtain ⟨ts, derived⟩ := exists_derives_stmts body inside
    exact ⟨_, .lambda derived⟩

theorem exists_derives_args (es : List Expr) (plain : ∀ leaf ∈ Expr.leavesOfAll es, leaf.Plain) :
    ∃ shapes, Derives (.args es) shapes := by
  match es with
  | [] => exact ⟨_, .none⟩
  | [e] =>
    obtain ⟨ts, derived⟩ := exists_derives_expr e (List.forall_mem_append.mp plain).1
    exact ⟨_, .last (derived.loosen (by decide))⟩
  | e :: e' :: es =>
    obtain ⟨now, later⟩ := List.forall_mem_append.mp plain
    obtain ⟨ts, first⟩ := exists_derives_expr e now
    obtain ⟨us, others⟩ := exists_derives_args (e' :: es) later
    exact ⟨_, .more (first.loosen (by decide)) others⟩

/-- Every statement can be written down. It is closed by a semicolon where it may have one, so that
any statement may follow. -/
theorem exists_derives_stmt (s : Stmt) (plain : ∀ leaf ∈ s.leaves, leaf.Plain) :
    ∃ shapes, Derives (.stmt .closed s) shapes := by
  match s with
  | .declare _ none _ => exact ⟨_, .declare⟩
  | .declare _ (some value) _ =>
    obtain ⟨ts, given⟩ := exists_derives_expr value (List.forall_mem_cons.mp plain).2
    exact ⟨_, .initialise true (given.loosen (by decide))⟩
  | .assign _ value _ =>
    obtain ⟨ts, given⟩ := exists_derives_expr value (List.forall_mem_cons.mp plain).2
    exact ⟨_, .assign true (given.loosen (by decide))⟩
  | .print value _ =>
    obtain ⟨ts, given⟩ := exists_derives_expr value plain
    exact ⟨_, .print true (given.loosen (by decide))⟩
  | .branch condition (.mk yes _) none _ =>
    obtain ⟨test, taken⟩ := List.forall_mem_append.mp (List.forall_mem_append.mp plain).1
    obtain ⟨ts, tested⟩ := exists_derives_expr condition test
    obtain ⟨us, derived⟩ := exists_derives_stmts yes taken
    exact ⟨_, .branch (tested.loosen (by decide)) derived⟩
  | .branch condition (.mk yes _) (some (.mk no _)) _ =>
    obtain ⟨both, untaken⟩ := List.forall_mem_append.mp plain
    obtain ⟨test, taken⟩ := List.forall_mem_append.mp both
    obtain ⟨ts, tested⟩ := exists_derives_expr condition test
    obtain ⟨us, derived⟩ := exists_derives_stmts yes taken
    obtain ⟨vs, derived'⟩ := exists_derives_stmts no untaken
    exact ⟨_, .choice (tested.loosen (by decide)) derived derived'⟩
  | .block (.mk body _) =>
    obtain ⟨ts, derived⟩ := exists_derives_stmts body plain
    exact ⟨_, .block derived⟩
  | .foreign _ _ => exact ⟨_, .foreign⟩
  | .ret none _ => exact ⟨_, .leave⟩
  | .ret (some value) _ =>
    obtain ⟨ts, given⟩ := exists_derives_expr value plain
    exact ⟨_, .ret true (given.loosen (by decide))⟩
  | .func _ _ (.mk body _) _ =>
    obtain ⟨_, others⟩ := List.forall_mem_cons.mp plain
    obtain ⟨ts, derived⟩ := exists_derives_stmts body (List.forall_mem_append.mp others).2
    exact ⟨_, .func derived⟩
  | .expr value _ =>
    obtain ⟨ts, given⟩ := exists_derives_expr value plain
    exact ⟨_, .expr true (given.loosen (by decide))⟩

theorem exists_derives_stmts (ss : List Stmt) (plain : ∀ leaf ∈ Stmt.leavesOfAll ss, leaf.Plain) :
    ∃ shapes, Derives (.stmts ss) shapes := by
  match ss with
  | [] => exact ⟨_, .nil⟩
  | s :: ss =>
    obtain ⟨now, later⟩ := List.forall_mem_append.mp plain
    obtain ⟨ts, first⟩ := exists_derives_stmt s now
    obtain ⟨us, others⟩ := exists_derives_stmts ss later
    exact ⟨_, .cons first others trivial⟩

end

/-- Tokens on one line, with a space in front of each. -/
def line (shapes : List Shape) : List Char := shapes.flatMap fun s => ' ' :: s.spelling

theorem spaced_line {shapes : List Shape} {cs : List Char} (written : cs = line shapes) :
    Spaced shapes cs := by
  subst written
  induction shapes with
  | nil => exact .nil nofun
  | cons s shapes ih =>
    have space : ∀ c ∈ [' '], Gap.isBlank c = true := List.all_eq_true.mp rfl
    refine .cons space (fun c first => ?_) ih
    cases shapes with
    | nil => cases first
    | cons s' shapes =>
      cases first
      rfl

end Rendering

namespace Program

open Rendering

/-- A plain program can be written, and whatever text it is written as, reading that
text gives the program back but for the places in it. -/
theorem parse_undoes_rendering (p : Program) (plain : ∀ leaf ∈ p.leaves, leaf.Plain) :
    (∃ text, p.RendersTo text) ∧
      ∀ text, p.RendersTo text → ∃ q, Program.parse text = .ok q ∧ q.unplaced = p.unplaced := by
  constructor
  · obtain ⟨shapes, derived⟩ := exists_derives_stmts p.statements plain
    exact ⟨String.ofList (line shapes), shapes, derived, spaced_line String.toList_ofList⟩
  · rintro text ⟨shapes, derived, spaced⟩
    have placed : Placed shapes (Tokens.ofText text).list :=
      Tokens.scan_spaced .start spaced (derived.legible plain)
    obtain ⟨qs, same, found⟩ := program_reads derived plain (Tokens.ofText text).final placed
    have whole : Program.read text = (⟨qs⟩, []) := by rw [Program.read, found]
    refine ⟨⟨qs⟩, ?_, congrArg Program.mk same⟩
    rw [Program.parse, whole]

/-- Parentheses that need not be there, and no semicolon at all. -/
theorem parse_undoes_rendering_sample :
    ∃ q, Program.parse " x = ( 7 - 2 ) - 1 print ( ( x ) ) ( f ) ( x )" = .ok q ∧
      q.unplaced = ⟨[.assign "x" (.binary .sub (.binary .sub (.int 7 .start) (.int 2 .start) .start)
          (.int 1 .start) .start) .start,
        .print (.ident "x" .start) .start,
        .expr (.call (.ident "f" .start) [.ident "x" .start] .start) .start]⟩ := by
  have number (n : Nat) : Derives (.expr 4 (.int n .start)) [.number (toString n)] :=
    .number (numeral_toString n)
  have use (word : String) : Derives (.expr 4 (.ident word .start)) [.name word] := .ident
  have minus {left right : Expr} {ls rs : List Shape} (first : Derives (.expr 2 left) ls)
      (second : Derives (.expr 3 right) rs) :
      Derives (.expr 1 (.binary .sub left right .start)) (ls ++ .symbol .minus :: rs) := by
    have whole : Derives (.expr (precedence .sub) (.binary .sub left right .start)) _ := .binary first second
    exact whole.loosen (by decide)
  have value := minus ((Derives.paren (minus ((number 7).loosen (by decide))
    ((number 2).loosen (by decide)))).loosen (by decide)) ((number 1).loosen (by decide))
  have shown := Derives.paren ((use "x").loosen (by decide))
  have called := Derives.call (l := .start) (.paren ((use "f").loosen (by decide)))
    (.last ((use "x").loosen (by decide)))
  have assigned : Derives (.stmt .expression (.assign "x" _ .start)) _ := .assign false value
  have body := assigned.cons (.cons (.print (l := .start) false (shown.loosen (by decide)))
    (.cons (.expr (l := .start) false (called.loosen (by decide))) .nil nofun) trivial)
    (by rintro s ⟨⟩; decide)
  exact (parse_undoes_rendering ⟨_⟩ (by decide +kernel)).2 _ ⟨_, body, spaced_line (by decide +kernel)⟩

end Program

end ImpToC
