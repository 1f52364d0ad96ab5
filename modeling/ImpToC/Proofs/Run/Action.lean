import ImpToC.Operator
import ImpToC.ValueType

/-!
What running a program means, as far as the language and the emitted C share it:
values, what can be seen of a run, a bound on its steps, calls, and variables in nested
frames. Everything that the text of a program does not decide is in `Platform`:
arithmetic with its overflows, variables without a value, and functions from
outside. Results that hold for every platform hold for the one at hand. Only the three
functions that emitted code relies on have a fixed meaning, and it is the same for a program
that calls one of them itself.
-/
namespace ImpToC

/-- Negative, zero or positive, as the first string is before, equal to or after
the second. -/
def C.strcmp (a b : List Char) : Int := if a = b then 0 else if a < b then -1 else 1

namespace Run

/-- A string is its contents; where it is stored plays no part. -/
inductive Value where
  | int (value : Int)
  | str (contents : List Char)
  deriving DecidableEq, Repr

namespace Value

def type : Value → ValueType
  | int _ => .int
  | str _ => .str

/-- As a condition, a string is true whatever it holds. -/
def isTrue : Value → Bool
  | int value => value != 0
  | str _ => true

def text : Value → String
  | int value => toString value
  | str contents => String.ofList contents

/-- The result of a comparison. -/
def ofBool (holds : Bool) : Value := int (if holds then 1 else 0)

end Value

/-- What can be seen of a run from outside. -/
inductive Event where
  | wrote (text : String)
  | called (name : String) (args : List Value)
  deriving DecidableEq, Repr

/-- What a function from outside does: it may write, and it may end the program.
A call counts as an integer, whatever the function gives back. -/
inductive Reply where
  | returns (written : String) (value : Int)
  | ends (written : String)
  deriving DecidableEq, Repr

structure Platform where
  /-- The four operations; without a result the program is ended. -/
  arithmetic : Operator → Int → Int → Option Int
  /-- The value of a variable that was given none, after these events. -/
  unset : List Event → String → Int
  /-- What a function from outside does, after these events. -/
  foreign : List Event → String → List Value → Reply

/-- Why a run stops early. A run is `stuck` where the language says nothing. -/
inductive Stop where
  | outOfSteps | trapped | ended | stuck
  deriving DecidableEq, Repr

structure State where
  steps : Nat
  events : List Event
  deriving DecidableEq, Repr

/-- A part of a run: it uses up steps, adds events, and gives a result or stops. -/
def Action (α : Type) : Type := State → Except Stop α × State

namespace Action

def bind {α β : Type} (x : Action α) (f : α → Action β) : Action β := fun s =>
  match x s with
  | (.ok a, after) => f a after
  | (.error reason, after) => (.error reason, after)

instance : Monad Action where
  pure a := fun s => (.ok a, s)
  bind := bind

theorem bind_pure {α : Type} (x : Action α) : x.bind (fun a => pure a) = x := by
  funext s
  unfold bind
  rcases x s with ⟨_ | _, after⟩ <;> rfl

theorem bind_bind {α β γ : Type} (x : Action α) (f : α → Action β) (g : β → Action γ) :
    (x.bind f).bind g = x.bind fun a => (f a).bind g := by
  funext s
  unfold bind
  rcases x s with ⟨_ | _, after⟩ <;> rfl

instance : LawfulMonad Action := LawfulMonad.mk' Action bind_pure (fun _ _ => rfl) bind_bind

end Action

def stop {α : Type} (reason : Stop) : Action α := fun s => (.error reason, s)

/-- Nothing follows a stop. -/
@[simp] theorem stop_bind {α β : Type} (reason : Stop) (f : α → Action β) : stop reason >>= f = stop reason := rfl

/-- Use up a step. -/
def tick : Action Unit := fun s =>
  match s.steps with
  | 0 => (.error .outOfSteps, s)
  | n + 1 => (.ok (), ⟨n, s.events⟩)

/-- Write a value and a line feed. -/
def writeLine (v : Value) : Action Unit := fun s =>
  (.ok (), ⟨s.steps, s.events ++ [.wrote (v.text ++ "\n")]⟩)

def unset (platform : Platform) (name : String) : Action Value := fun s =>
  (.ok (.int (platform.unset s.events name)), s)

/-- Call a function from outside. -/
def foreign (platform : Platform) (name : String) (args : List Value) : Action Value := fun s =>
  match platform.foreign s.events name args with
  | .returns written value =>
    (.ok (.int value), ⟨s.steps, s.events ++ [.called name args, .wrote written]⟩)
  | .ends written => (.error .ended, ⟨s.steps, s.events ++ [.called name args, .wrote written]⟩)

/-- The functions that emitted code relies on: output and comparison from the C library, and
the function that joins two strings. -/
def helpers : List String := ["printf", "strcmp", "concat_strings"]

/-- What a format shows, for the two formats of emitted code. -/
def shown? (format : List Char) : Option ValueType :=
  if format = ['%', 'd', '\n'] then some .int
  else if format = ['%', 's', '\n'] then some .str
  else none

/-- Output gives the number of bytes. Formats that emitted code does not use are left to the
platform. -/
def printf (platform : Platform) : List Value → Action Value
  | [.str format, v] =>
    match shown? format with
    | none => foreign platform "printf" [.str format, v]
    | some type =>
      if v.type = type then do
        writeLine v
        pure (.int (v.text.utf8ByteSize + 1))
      else stop .stuck
  | args => foreign platform "printf" args

/-- A function of two strings. -/
def ofStrings (result : List Char → List Char → Value) : List Value → Action Value
  | [.str a, .str b] => pure (result a b)
  | _ => stop .stuck

/-- Call a function that the program does not define. -/
def outside (platform : Platform) (name : String) (args : List Value) : Action Value :=
  if name = "printf" then printf platform args
  else if name = "strcmp" then ofStrings (fun a b => .int (C.strcmp a b)) args
  else if name = "concat_strings" then ofStrings (fun a b => .str (a ++ b)) args
  else foreign platform name args

/-- How functions are called, by name and with the values of the arguments. -/
abbrev Caller : Type := String → List Value → Action Value

/-- The functions of a program: what each does with its arguments, if calls inside it do what
the caller does. -/
abbrev Bodies : Type := Caller → String → List Value → Option (Action Value)

/-- Calls with at most `depth` calls inside each other. To enter a function of the program takes
a step, so a depth as large as the number of steps is never used up first. What the program does
not define comes from outside, and takes none. -/
def calling (platform : Platform) (bodies : Bodies) : Nat → Caller
  | 0, name, args =>
    match bodies (outside platform) name args with
    | some _ => stop .outOfSteps
    | none => outside platform name args
  | depth + 1, name, args =>
    match bodies (calling platform bodies depth) name args with
    | some body => do
      tick
      body
    | none => outside platform name args

/-- An operation on two integers. -/
def integers (platform : Platform) (op : Operator) (a b : Int) : Action Value :=
  match op with
  | .eq => pure (.ofBool (a = b))
  | .ne => pure (.ofBool (a ≠ b))
  | op =>
    match platform.arithmetic op a b with
    | some value => pure (.int value)
    | none => stop .trapped

/-- Variables in nested frames, from the innermost outwards, the newest of each
frame first. -/
abbrev Frames (α : Type) : Type := List (List (String × α))

namespace Frames

variable {α : Type}

def lookup? (fs : Frames α) (name : String) : Option α :=
  fs.findSome? fun frame => frame.lookup name

/-- One more variable in the innermost frame. -/
def declare (fs : Frames α) (name : String) (a : α) : Frames α :=
  ((name, a) :: fs.headD []) :: fs.tail

/-- Change the first variable of this name in one frame. -/
def setIn (name : String) (a : α) : List (String × α) → List (String × α)
  | [] => []
  | (other, old) :: rest =>
    if other = name then (other, a) :: rest else (other, old) :: setIn name a rest

/-- Change the variable that the name means, if there is one. -/
def assign? (name : String) (a : α) : Frames α → Option (Frames α)
  | [] => none
  | frame :: outer =>
    match frame.lookup name with
    | some _ => some (setIn name a frame :: outer)
    | none => (assign? name a outer).map (frame :: ·)

end Frames

/-- How a statement ends: the variables after it, or the value returned. -/
inductive Flow (α : Type) where
  | next (frames : Frames α)
  | returned (value : Value)

/-- Leave the frame of a block, unless the function is left. -/
def Flow.close {α : Type} : Flow α → Flow α
  | .next frames => .next frames.tail
  | .returned v => .returned v

/-- All that can be seen of a run: its events, and why it stopped if it did. -/
structure Outcome where
  events : List Event
  stopped : Option Stop
  deriving DecidableEq, Repr

/-- Run for at most so many steps from the start. -/
def Action.outcome {α : Type} (x : Action α) (bound : Nat) : Outcome :=
  match x ⟨bound, []⟩ with
  | (.ok _, s) => ⟨s.events, none⟩
  | (.error reason, s) => ⟨s.events, some reason⟩

/-- The text that was written, piece by piece. -/
def Outcome.output (o : Outcome) : List String :=
  o.events.filterMap fun
    | .wrote text => some text
    | .called _ _ => none

end Run

end ImpToC
