import ImpToC.Proofs.C.Reading

/-!
Emitted text is made of whole lines, and one more line may be put in where one begins. When a
comment is put among statements, the text of all that is around them gets this line and is the
same otherwise. The line is indented by the blocks that are around the comment.
-/
namespace ImpToC

namespace C

/-- Text that is made of whole lines. -/
def IsLines (text : String) : Prop := text = "" ∨ ∃ front, text = front ++ "\n"

theorem isLines_nil : IsLines "" := .inl rfl

theorem isLines_append_line (front : String) (depth : Nat) (text : String) :
    IsLines (front ++ line depth text) :=
  .inr ⟨front ++ (String.join (List.replicate depth "    ") ++ text), by simp only [line, String.append_assoc]⟩

theorem isLines_line (depth : Nat) (text : String) : IsLines (line depth text) :=
  .inr ⟨_, rfl⟩

theorem IsLines.append {front text : String} (first : IsLines front) (second : IsLines text) :
    IsLines (front ++ text) := by
  rcases second with rfl | ⟨inner, rfl⟩
  · rwa [String.append_empty]
  · exact .inr ⟨front ++ inner, by rw [String.append_assoc]⟩

/-- Every statement is written in whole lines. -/
theorem Stmt.render_isLines (depth : Nat) (s : Stmt) : IsLines (s.render depth) := by
  cases s with
  | declare type name value =>
    cases value with
    | none => exact isLines_line depth _
    | some value => exact isLines_line depth _
  | branch condition consequence alternative => exact isLines_append_line _ depth _
  | block body => exact isLines_append_line _ depth _
  | _ => exact isLines_line depth _

theorem Stmt.renderAll_isLines (depth : Nat) (ss : List Stmt) : IsLines (Stmt.renderAll depth ss) := by
  induction ss with
  | nil => exact isLines_nil
  | cons s ss ih => exact (s.render_isLines depth).append ih

/-- The second text is the first with `added` put in where a line begins. -/
def Extends (added text text' : String) : Prop :=
  ∃ before after, IsLines before ∧ text = before ++ after ∧ text' = before ++ added ++ after

/-- Behind whole lines an added line is still one. -/
theorem Extends.behind {added text text' front : String} (extended : Extends added text text')
    (lines : IsLines front) :
    Extends added (front ++ text) (front ++ text') := by
  obtain ⟨before, after, first, rfl, rfl⟩ := extended
  refine ⟨front ++ before, after, lines.append first, ?_, ?_⟩ <;> simp only [String.append_assoc]

theorem Extends.inFrontOf {added text text' : String} (extended : Extends added text text') (rest : String) :
    Extends added (text ++ rest) (text' ++ rest) := by
  obtain ⟨before, after, first, rfl, rfl⟩ := extended
  refine ⟨before, after ++ rest, first, ?_, ?_⟩ <;> simp only [String.append_assoc]

/-- What an external declaration leaves behind. -/
def foreignLine (name : String) (depth : Nat) : String := (Stmt.foreign name).render depth

/-- Statements whose text gets the comment for `name`, `n` levels further in than their own. -/
def Notes (name : String) (n : Nat) (codes codes' : List Stmt) : Prop :=
  ∀ depth, Extends (foreignLine name (depth + n)) (Stmt.renderAll depth codes) (Stmt.renderAll depth codes')

variable {name : String} {n : Nat} {codes codes' : List Stmt}

/-- A note may stand anywhere among statements. -/
theorem notes_here (codes rest : List Stmt) :
    Notes name 0 (codes ++ rest) (codes ++ .foreign name :: rest) := by
  intro depth
  refine ⟨Stmt.renderAll depth codes, Stmt.renderAll depth rest, Stmt.renderAll_isLines depth codes,
    Stmt.renderAll_append depth codes rest, ?_⟩
  rw [Stmt.renderAll_append, Stmt.renderAll, String.append_assoc]
  rfl

theorem Notes.behind (noted : Notes name n codes codes') (front : List Stmt) :
    Notes name n (front ++ codes) (front ++ codes') := by
  intro depth
  rw [Stmt.renderAll_append, Stmt.renderAll_append]
  exact (noted depth).behind (Stmt.renderAll_isLines depth front)

theorem Notes.inFrontOf (noted : Notes name n codes codes') (rest : List Stmt) :
    Notes name n (codes ++ rest) (codes' ++ rest) := by
  intro depth
  rw [Stmt.renderAll_append, Stmt.renderAll_append]
  exact (noted depth).inFrontOf _

/-- The text of a block is that of its statements, one level further in. -/
theorem Notes.inner (noted : Notes name n codes codes') (depth : Nat) :
    Extends (foreignLine name (depth + (n + 1))) (Stmt.renderAll (depth + 1) codes)
      (Stmt.renderAll (depth + 1) codes') := by
  have level : depth + (n + 1) = depth + 1 + n := by omega
  rw [level]
  exact noted (depth + 1)

/-- Inside a block the note is written one level further in. -/
theorem Notes.block (noted : Notes name n codes codes') :
    Notes name (n + 1) [.block codes] [.block codes'] := by
  intro depth
  simp only [Stmt.renderAll, Stmt.render]
  exact (((noted.inner depth).behind (isLines_line depth _)).inFrontOf _).inFrontOf _

theorem Notes.consequence (noted : Notes name n codes codes') (condition : Expr)
    (alternative : Option (List Stmt)) :
    Notes name (n + 1) [.branch condition codes alternative] [.branch condition codes' alternative] := by
  intro depth
  simp only [Stmt.renderAll, Stmt.render]
  exact ((((noted.inner depth).behind (isLines_line depth _)).inFrontOf _).inFrontOf _).inFrontOf _

theorem Notes.alternative (noted : Notes name n codes codes') (condition : Expr)
    (consequence : List Stmt) :
    Notes name (n + 1) [.branch condition consequence (some codes)] [.branch condition consequence (some codes')] := by
  intro depth
  simp only [Stmt.renderAll, Stmt.render, Stmt.renderAlternative]
  have front := (isLines_line depth ("if (" ++ condition.render ++ r") {")).append
    (Stmt.renderAll_isLines (depth + 1) consequence)
  exact ((((noted.inner depth).behind (isLines_line depth _)).behind front).inFrontOf _).inFrontOf _

end C

namespace C.Code

variable {name : String} {n : Nat}

/-- A note in the main body adds one line to the text, and nothing else changes. -/
theorem extends_main {main main' : List Stmt} (noted : Notes name n main main') (fs : List Function) :
    Extends (foreignLine name (n + 1)) (render ⟨fs, main⟩) (render ⟨fs, main'⟩) := by
  have inner := noted 1
  rw [Nat.add_comm] at inner
  exact (inner.behind (isLines_append_line _ 0 _)).inFrontOf _

/-- The text in front of the body of a function and the text behind it. -/
theorem render_around (fs gs : List Function) (main : List Stmt) :
    ∃ rest, ∀ f, render ⟨fs ++ f :: gs, main⟩ =
      preamble ++ prototypes ⟨fs ++ f :: gs, main⟩ ++ String.join (fs.map Function.render) ++ "\n" ++
        line 0 (f.signature ++ r" {") ++ (Stmt.renderAll 1 f.body ++ rest) := by
  refine ⟨line 0 r"}" ++ String.join (gs.map Function.render) ++ "\n" ++ line 0 r"int main() {" ++
    Stmt.renderAll 1 main ++ line 0 r"}", fun f => ?_⟩
  rw [render, List.map_append, List.map_cons, String.join_append, String.join_cons, Function.render]
  simp only [String.append_assoc]

/-- So does a note in the body of one function. -/
theorem extends_function {f f' : Function} (named : f.name = f'.name) (given : f.params = f'.params)
    (noted : Notes name n f.body f'.body) (fs gs : List Function) (main : List Stmt) :
    Extends (foreignLine name (n + 1)) (render ⟨fs ++ f :: gs, main⟩) (render ⟨fs ++ f' :: gs, main⟩) := by
  have signature : f.signature = f'.signature := by rw [Function.signature, Function.signature, named, given]
  have prototypes : prototypes ⟨fs ++ f :: gs, main⟩ = prototypes ⟨fs ++ f' :: gs, main⟩ := by
    simp [prototypes, Function.prototype, signature]
  have inner := noted 1
  rw [Nat.add_comm] at inner
  obtain ⟨rest, whole⟩ := render_around fs gs main
  rw [whole, whole, prototypes, signature]
  exact (inner.inFrontOf rest).behind (isLines_append_line _ 0 _)

end C.Code

end ImpToC
