import Mathlib.Logic.Relation
import ImpToC.Parse

/-!
The parser as a machine that takes one step after the other. Calls are frames of a stack,
the depth of blocks is a counter that goes up and down, and the cursor is the list of
tokens from the current one on. A construct is entered on its first token and left on its
last. That the machine and the parser agree is a theorem; what the machine adds is that
one can speak of all the moments of a parse, those after an error among them.
-/
namespace ImpToC.Parse.Machine

/-- A statement that ends with an expression, and what it does with it. -/
inductive Role where
  | initial (name : String)
  | assigned (name : String)
  | returned
  | bare

def Role.statement (place : Location) (e : Expr) : Role → Stmt
  | initial name => .declare name (some e) place
  | assigned name => .assign name e place
  | returned => .ret (some e) place
  | bare => .expr e place

/-- A statement that ends with a block, and what it does with it. -/
inductive Body where
  | nested
  | alternative (condition : Expr) (consequence : Block) (place : Location)
  | function (name : String) (params : List String) (place : Location)

def Body.statement (b : Block) : Body → Stmt
  | nested => .block b
  | alternative condition consequence place => .branch condition consequence (some b) place
  | function name params place => .func name params b place

/-- A call that waits for a part of its construct. The loop over the statements of a
program has no place where it was opened, the one of a block has. -/
inductive Frame where
  | loop (opened : Option Location) (done : List Stmt)
  | climbing (level : Level)
  | right (level : Level) (op : Operator) (left : Expr) (place : Location)
  | group
  | argument (level : Level) (callee : Expr) (place : Location) (done : List Expr)
  | literal (params : List String) (place : Location)
  | ending (role : Role) (place : Location)
  | printed (place : Location)
  | condition (place : Location)
  | consequence (condition : Expr) (place : Location)
  | body (body : Body)

/-- What is done next: go round a loop, read a construct, hand one back to the call that
waits for it, or give up. -/
inductive Control where
  | loop (opened : Option Location) (done : List Stmt)
  | statement
  | operand
  | climb (level : Level) (left : Expr)
  | expr (e : Expr)
  | stmt (s : Stmt)
  | block (b : Block)
  | failed (error : Diagnostic)

structure State where
  control : Control
  stack : List Frame
  window : List Token
  errors : List Diagnostic
  depth : Nat

namespace State

/-- The current token, which is the one at the end of the text when no other is left. -/
def current (final : Token) (σ : State) : Token := σ.window.headD final

def give (σ : State) (control : Control) (window : List Token) : State :=
  { σ with control := control, window := window }

def fail (σ : State) (error : Diagnostic) (window : List Token) : State := σ.give (.failed error) window

/-- Begin to read an expression for the call `frame`. -/
def call (σ : State) (level : Level) (frame : Frame) (window : List Token) : State :=
  { σ with control := .operand, stack := .climbing level :: frame :: σ.stack, window := window }

/-- Begin to read the block behind `brace` for the call `frame`. -/
def enter (σ : State) (frame : Frame) (brace : Token) (rest : List Token) : State :=
  { σ with control := .loop (some brace.location) [], stack := frame :: σ.stack, window := rest,
           depth := σ.depth + 1 }

/-- Go on behind a piece that holds no expression and no statement. -/
def after {α : Type} {input : List Token} (σ : State) (s : Scan α input)
    (next : State → α → Token → List Token → State) : State :=
  match s.val with
  | ⟨recorded, .parsed value last rest⟩ => next { σ with errors := σ.errors ++ recorded } value last rest
  | ⟨recorded, .failed error resume⟩ => { σ with errors := σ.errors ++ recorded }.fail error resume

variable (final : Token) (σ : State)

/-- At the head of a loop. A block ends at its brace, and fails at the end of the text,
where the program ends; both lower the depth. -/
def iterate (opened : Option Location) (done : List Stmt) : Option State :=
  match σ.window, opened with
  | [], none => none
  | [], some l =>
    some { σ with control := .failed ⟨.unclosedBlock l, final.location⟩, depth := σ.depth - 1 }
  | _ :: _, none => some { σ with control := .statement, stack := .loop none done :: σ.stack }
  | t :: _, some l =>
    if t.kind = .symbol .rightBrace then
      some { σ with control := .block (.mk done l), depth := σ.depth - 1 }
    else some { σ with control := .statement, stack := .loop (some l) done :: σ.stack }

def statement : State :=
  match σ.window with
  | [] => σ.fail ⟨.noOperand final.kind, final.location⟩ []
  | t :: rest =>
    match t.kind with
    | .keyword .var =>
      σ.after (expect final .ident t rest) fun σ name last rest =>
        match rest with
        | [] => σ.fail (.unexpected .initializerOrEnd final) [last]
        | next :: rest =>
          if next.kind = .symbol .semicolon then
            σ.give (.stmt (.declare name.literal none t.location)) (next :: rest)
          else if next.kind = .symbol .assign then
            σ.call .lowest (.ending (.initial name.literal) t.location) rest
          else σ.fail (.unexpected .initializerOrEnd next) (last :: next :: rest)
    | .keyword .print =>
      σ.after (expect final (.symbol .leftParen) t rest) fun σ _ _ rest =>
        σ.call .lowest (.printed t.location) rest
    | .keyword .cond => σ.call .lowest (.condition t.location) rest
    | .keyword .foreign =>
      σ.after (expect final .ident t rest) fun σ name last rest =>
        match rest with
        | [] => σ.fail ⟨.externalParameters, final.location⟩ [last]
        | next :: rest =>
          if next.kind = .symbol .semicolon then
            σ.give (.stmt (.foreign name.literal t.location)) (next :: rest)
          else σ.fail ⟨.externalParameters, next.location⟩ (last :: next :: rest)
    | .keyword .ret =>
      match rest with
      | [] => σ.give (.stmt (.ret none t.location)) [t]
      | next :: rest =>
        if next.kind = .symbol .semicolon then σ.give (.stmt (.ret none t.location)) (next :: rest)
        else if next.kind = .symbol .rightBrace then
          σ.give (.stmt (.ret none t.location)) (t :: next :: rest)
        else σ.call .lowest (.ending .returned t.location) (next :: rest)
    | .symbol .leftBrace => σ.enter (.body .nested) t rest
    | _ =>
      match rest with
      | [] => σ.call .lowest (.ending .bare t.location) [t]
      | next :: rest =>
        if t.kind = .keyword .func ∧ next.kind = .ident then
          σ.after (header final next rest) fun σ params brace rest =>
            σ.enter (.body (.function next.literal params t.location)) brace rest
        else if t.kind = .ident ∧ next.kind = .symbol .assign then
          σ.call .lowest (.ending (.assigned t.literal) t.location) rest
        else σ.call .lowest (.ending .bare t.location) (t :: next :: rest)

def operand : State :=
  match σ.window with
  | [] => σ.fail ⟨.noOperand final.kind, final.location⟩ []
  | t :: rest =>
    match t.kind with
    | .ident => σ.give (.expr (.ident t.literal t.location)) (t :: rest)
    | .int =>
      match integer? t.literal with
      | some value => σ.give (.expr (.int value t.location)) (t :: rest)
      | none => σ.fail ⟨.integerTooLarge t.literal, t.location⟩ (t :: rest)
    | .string => σ.give (.expr (.str t.literal t.location)) (t :: rest)
    | .symbol .leftParen => σ.call .lowest .group rest
    | .keyword .func =>
      σ.after (header final t rest) fun σ params brace rest => σ.enter (.literal params t.location) brace rest
    | .illegal => σ.fail ⟨.illegalToken t.literal, t.location⟩ (t :: rest)
    | kind => σ.fail ⟨.noOperand kind, t.location⟩ (t :: rest)

/-- Behind an operand, whose last token is `last`. -/
def climb (level : Level) (left : Expr) (last : Token) (rest : List Token) : State :=
  match rest with
  | [] => σ.give (.expr left) [last]
  | t :: rest =>
    if level < levelOf t.kind then
      match Operator.ofKind? t.kind with
      | some op => σ.call op.level (.right level op left t.location) rest
      | none =>
        match rest with
        | [] => σ.call .lowest (.argument level left t.location []) []
        | u :: rest =>
          if u.kind = .symbol .rightParen then
            σ.give (.climb level (.call left [] t.location)) (u :: rest)
          else σ.call .lowest (.argument level left t.location []) (u :: rest)
    else σ.give (.expr left) (last :: t :: rest)

/-- Hand an expression that ends with `last` to the call that waits for it. -/
def takeExpr (e : Expr) (last : Token) (rest : List Token) : Frame → Option State
  | .climbing level => some (σ.give (.climb level e) (last :: rest))
  | .right level op left place => some (σ.give (.climb level (.binary op left e place)) (last :: rest))
  | .group =>
    some (σ.after (expect final (.symbol .rightParen) last rest) fun σ _ last rest =>
      σ.give (.expr e) (last :: rest))
  | .argument level callee place done =>
    some (match rest with
      | [] => σ.fail (.unexpected (.separatorOr (.symbol .rightParen)) final) [last]
      | t :: rest =>
        if t.kind = .symbol .comma then σ.call .lowest (.argument level callee place (done ++ [e])) rest
        else if t.kind = .symbol .rightParen then
          σ.give (.climb level (.call callee (done ++ [e]) place)) (t :: rest)
        else σ.fail (.unexpected (.separatorOr (.symbol .rightParen)) t) (last :: t :: rest))
  | .ending role place =>
    some (σ.after (optionalSemicolon (role.statement place e) last rest) fun σ s last rest =>
      σ.give (.stmt s) (last :: rest))
  | .printed place =>
    some (σ.after (expect final (.symbol .rightParen) last rest) fun σ _ last rest =>
      σ.after (optionalSemicolon (.print e place) last rest) fun σ s last rest =>
        σ.give (.stmt s) (last :: rest))
  | .condition place =>
    some (σ.after (expect final (.symbol .leftBrace) last rest) fun σ _ brace rest =>
      σ.enter (.consequence e place) brace rest)
  | _ => none

/-- Hand a block that ends with `last` to the call that waits for it. -/
def takeBlock (b : Block) (last : Token) (rest : List Token) : Frame → Option State
  | .literal params place => some (σ.give (.expr (.func params b place)) (last :: rest))
  | .consequence condition place =>
    some (match rest with
      | [] => σ.give (.stmt (.branch condition b none place)) [last]
      | next :: rest =>
        if next.kind = .ident ∧ next.literal = "else" then
          σ.after (expect final (.symbol .leftBrace) next rest) fun σ _ brace rest =>
            σ.enter (.body (.alternative condition b place)) brace rest
        else σ.give (.stmt (.branch condition b none place)) (last :: next :: rest))
  | .body body => some (σ.give (.stmt (body.statement b)) (last :: rest))
  | _ => none

end State

/-- One step. A call that waits for something else never gets to see a value, and the
machine stops there; it stops for good at the end of the program. -/
def step (final : Token) (σ : State) : Option State :=
  match σ.control, σ.stack, σ.window with
  | .loop opened done, _, _ => σ.iterate final opened done
  | .statement, _, _ => some (σ.statement final)
  | .operand, _, _ => some (σ.operand final)
  | .climb level left, _, last :: rest => some (σ.climb level left last rest)
  | .expr e, frame :: stack, last :: rest => { σ with stack := stack }.takeExpr final e last rest frame
  | .block b, frame :: stack, last :: rest => { σ with stack := stack }.takeBlock final b last rest frame
  | .stmt s, .loop opened done :: stack, _ :: rest =>
    some { σ with control := .loop opened (done ++ [s]), stack := stack, window := rest }
  | .failed error, .loop opened done :: stack, _ =>
    some { σ with control := .loop opened done, stack := stack, window := recover σ.depth σ.window,
                  errors := σ.errors ++ [error] }
  | .failed _, _ :: stack, _ => some { σ with stack := stack }
  | _, _, _ => none

/-- At the head of the loop over a program, with all its tokens ahead. -/
def start (input : List Token) : State := ⟨.loop none [], [], input, [], 0⟩

/-- Any number of steps. -/
def Reaches (final : Token) : State → State → Prop :=
  Relation.ReflTransGen fun σ τ => step final σ = some τ

/-- One step or more. -/
def Advances (final : Token) : State → State → Prop :=
  Relation.TransGen fun σ τ => step final σ = some τ

end ImpToC.Parse.Machine
