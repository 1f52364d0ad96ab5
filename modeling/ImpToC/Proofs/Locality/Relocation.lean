import ImpToC.Parse
import ImpToC.Proofs.Rendering.Grammar

/-!
Places are carried about and never looked at. To say so, every place in a token, a tree or
a diagnostic is sent through a map. The map that moves nothing leaves all as it is, and
what is left once places are forgotten does not depend on the map.
-/
namespace ImpToC

/-- The token at another place. -/
def Token.relocate (f : Location → Location) (t : Token) : Token := ⟨t.kind, t.literal, f t.location⟩

/-- A moved token is read as the old one: kind and text are kept, and the place is the new one. -/
@[simp] theorem Token.relocate_kind (f : Location → Location) (t : Token) : (t.relocate f).kind = t.kind := rfl

@[simp] theorem Token.relocate_literal (f : Location → Location) (t : Token) :
    (t.relocate f).literal = t.literal := rfl

@[simp] theorem Token.relocate_location (f : Location → Location) (t : Token) :
    (t.relocate f).location = f t.location := rfl

@[simp] theorem Token.relocate_id (t : Token) : t.relocate id = t := rfl

mutual

/-- All places of an expression, moved: its own and those of its parts. -/
def Expr.relocate (f : Location → Location) : Expr → Expr
  | .ident name l => .ident name (f l)
  | .int value l => .int value (f l)
  | .str text l => .str text (f l)
  | .binary op left right l => .binary op (left.relocate f) (right.relocate f) (f l)
  | .call callee args l => .call (callee.relocate f) (Expr.relocateAll f args) (f l)
  | .func params body l => .func params (body.relocate f) (f l)

def Expr.relocateAll (f : Location → Location) : List Expr → List Expr
  | [] => []
  | e :: es => e.relocate f :: Expr.relocateAll f es

def Expr.relocateOption (f : Location → Location) : Option Expr → Option Expr
  | none => none
  | some e => some (e.relocate f)

/-- All places of a statement, moved, with those of the blocks in it. -/
def Stmt.relocate (f : Location → Location) : Stmt → Stmt
  | .declare name value l => .declare name (Expr.relocateOption f value) (f l)
  | .assign name value l => .assign name (value.relocate f) (f l)
  | .print value l => .print (value.relocate f) (f l)
  | .branch condition consequence alternative l =>
    .branch (condition.relocate f) (consequence.relocate f) (Block.relocateOption f alternative) (f l)
  | .block body => .block (body.relocate f)
  | .foreign name l => .foreign name (f l)
  | .ret value l => .ret (Expr.relocateOption f value) (f l)
  | .func name params body l => .func name params (body.relocate f) (f l)
  | .expr value l => .expr (value.relocate f) (f l)

def Stmt.relocateAll (f : Location → Location) : List Stmt → List Stmt
  | [] => []
  | s :: ss => s.relocate f :: Stmt.relocateAll f ss

def Block.relocate (f : Location → Location) : Block → Block
  | .mk body l => .mk (Stmt.relocateAll f body) (f l)

def Block.relocateOption (f : Location → Location) : Option Block → Option Block
  | none => none
  | some body => some (body.relocate f)

end

/-- All places of a program, moved. -/
def Program.relocate (f : Location → Location) (p : Program) : Program := ⟨Stmt.relocateAll f p.statements⟩

/-- A cause names a place in two of its forms: that of the token met, and that of the
brace that was never closed. -/
def Diagnostic.Cause.relocate (f : Location → Location) : Diagnostic.Cause → Diagnostic.Cause
  | .unexpected expected got => .unexpected expected (got.relocate f)
  | .unclosedBlock opened => .unclosedBlock (f opened)
  | cause => cause

/-- The place of a diagnostic moves, and the one its message may name. -/
def Diagnostic.relocate (f : Location → Location) (d : Diagnostic) : Diagnostic :=
  ⟨d.cause.relocate f, f d.location⟩

/-- The recursion over arguments is an ordinary map, so what is known of maps applies. -/
theorem Expr.relocateAll_eq_map (f : Location → Location) (es : List Expr) :
    Expr.relocateAll f es = es.map (Expr.relocate f) := by
  induction es with
  | nil => rfl
  | cons e es ih => rw [Expr.relocateAll, ih, List.map_cons]

/-- The recursion over statements is a map as well. -/
theorem Stmt.relocateAll_eq_map (f : Location → Location) (ss : List Stmt) :
    Stmt.relocateAll f ss = ss.map (Stmt.relocate f) := by
  induction ss with
  | nil => rfl
  | cons s ss ih => rw [Stmt.relocateAll, ih, List.map_cons]

section Unmoved

mutual

/-- Nothing moves under the identity. The proof goes along the tree, one theorem for each function
of the recursion. -/
@[simp] theorem Expr.relocate_id (e : Expr) : e.relocate id = e := by
  cases e with
  | ident name l => rfl
  | int value l => rfl
  | str text l => rfl
  | binary op left right l => rw [Expr.relocate, left.relocate_id, right.relocate_id, id]
  | call callee args l => rw [Expr.relocate, callee.relocate_id, Expr.relocateAll_id args, id]
  | func params body l => rw [Expr.relocate, body.relocate_id, id]

theorem Expr.relocateAll_id (es : List Expr) : Expr.relocateAll id es = es := by
  cases es with
  | nil => rfl
  | cons e es => rw [Expr.relocateAll, e.relocate_id, Expr.relocateAll_id es]

/-- The initial value of a variable, or the value returned, where there is one. -/
theorem Expr.relocateOption_id (value : Option Expr) : Expr.relocateOption id value = value := by
  cases value with
  | none => rfl
  | some e => rw [Expr.relocateOption, e.relocate_id]

@[simp] theorem Stmt.relocate_id (s : Stmt) : s.relocate id = s := by
  cases s with
  | declare name value l => rw [Stmt.relocate, Expr.relocateOption_id value, id]
  | assign name value l => rw [Stmt.relocate, value.relocate_id, id]
  | print value l => rw [Stmt.relocate, value.relocate_id, id]
  | branch condition consequence alternative l =>
    rw [Stmt.relocate, condition.relocate_id, consequence.relocate_id,
      Block.relocateOption_id alternative, id]
  | block body => rw [Stmt.relocate, body.relocate_id]
  | foreign name l => rfl
  | ret value l => rw [Stmt.relocate, Expr.relocateOption_id value, id]
  | func name params body l => rw [Stmt.relocate, body.relocate_id, id]
  | expr value l => rw [Stmt.relocate, value.relocate_id, id]

theorem Stmt.relocateAll_id (ss : List Stmt) : Stmt.relocateAll id ss = ss := by
  cases ss with
  | nil => rfl
  | cons s ss => rw [Stmt.relocateAll, s.relocate_id, Stmt.relocateAll_id ss]

/-- A block is moved with the place of its brace. -/
theorem Block.relocate_id (b : Block) : b.relocate id = b := by
  cases b with
  | mk body l => rw [Block.relocate, Stmt.relocateAll_id body, id]

theorem Block.relocateOption_id (b : Option Block) : Block.relocateOption id b = b := by
  cases b with
  | none => rfl
  | some body => rw [Block.relocateOption, body.relocate_id]

end

/-- Only two of the causes hold a place, and it stays. -/
@[simp] theorem Diagnostic.relocate_id (d : Diagnostic) : d.relocate id = d := by
  obtain ⟨cause, l⟩ := d
  cases cause <;> rfl

end Unmoved

section Forgotten

variable (f : Location → Location)

mutual

/-- Once places are forgotten, it cannot be told that they were moved. Again the proof goes along
the tree. -/
theorem Expr.unplaced_relocate (e : Expr) : (e.relocate f).unplaced = e.unplaced := by
  cases e with
  | ident name l => rfl
  | int value l => rfl
  | str text l => rfl
  | binary op left right l =>
    simp only [Expr.relocate, Expr.unplaced, left.unplaced_relocate, right.unplaced_relocate]
  | call callee args l =>
    simp only [Expr.relocate, Expr.unplaced, callee.unplaced_relocate, Expr.unplacedAll_relocate args]
  | func params body l => simp only [Expr.relocate, Expr.unplaced, body.unplaced_relocate]

theorem Expr.unplacedAll_relocate (es : List Expr) :
    Expr.unplacedAll (Expr.relocateAll f es) = Expr.unplacedAll es := by
  cases es with
  | nil => rfl
  | cons e es =>
    simp only [Expr.relocateAll, Expr.unplacedAll, e.unplaced_relocate, Expr.unplacedAll_relocate es]

/-- The optional values of a declaration and of a return. -/
theorem Expr.unplacedOption_relocate (value : Option Expr) :
    Expr.unplacedOption (Expr.relocateOption f value) = Expr.unplacedOption value := by
  cases value with
  | none => rfl
  | some e => simp only [Expr.relocateOption, Expr.unplacedOption, e.unplaced_relocate]

theorem Stmt.unplaced_relocate (s : Stmt) : (s.relocate f).unplaced = s.unplaced := by
  cases s with
  | declare name value l => simp only [Stmt.relocate, Stmt.unplaced, Expr.unplacedOption_relocate value]
  | assign name value l => simp only [Stmt.relocate, Stmt.unplaced, value.unplaced_relocate]
  | print value l => simp only [Stmt.relocate, Stmt.unplaced, value.unplaced_relocate]
  | branch condition consequence alternative l =>
    simp only [Stmt.relocate, Stmt.unplaced, condition.unplaced_relocate,
      consequence.unplaced_relocate, Block.unplacedOption_relocate alternative]
  | block body => simp only [Stmt.relocate, Stmt.unplaced, body.unplaced_relocate]
  | foreign name l => rfl
  | ret value l => simp only [Stmt.relocate, Stmt.unplaced, Expr.unplacedOption_relocate value]
  | func name params body l => simp only [Stmt.relocate, Stmt.unplaced, body.unplaced_relocate]
  | expr value l => simp only [Stmt.relocate, Stmt.unplaced, value.unplaced_relocate]

theorem Stmt.unplacedAll_relocate (ss : List Stmt) :
    Stmt.unplacedAll (Stmt.relocateAll f ss) = Stmt.unplacedAll ss := by
  cases ss with
  | nil => rfl
  | cons s ss =>
    simp only [Stmt.relocateAll, Stmt.unplacedAll, s.unplaced_relocate, Stmt.unplacedAll_relocate ss]

theorem Block.unplaced_relocate (b : Block) : (b.relocate f).unplaced = b.unplaced := by
  cases b with
  | mk body l => simp only [Block.relocate, Block.unplaced, Stmt.unplacedAll_relocate body]

/-- The alternative of a branch, where there is one. -/
theorem Block.unplacedOption_relocate (b : Option Block) :
    Block.unplacedOption (Block.relocateOption f b) = Block.unplacedOption b := by
  cases b with
  | none => rfl
  | some body => simp only [Block.relocateOption, Block.unplacedOption, body.unplaced_relocate]

end

/-- Programs that differ by a move are the same tree without places. -/
theorem Program.unplaced_relocate (p : Program) : (p.relocate f).unplaced = p.unplaced :=
  congrArg Program.mk (Stmt.unplacedAll_relocate f p.statements)

end Forgotten

end ImpToC
