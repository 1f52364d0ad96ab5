import ImpToC.Token

/-!
Binary operators and how tightly they bind. All of them associate to the left.
-/
namespace ImpToC

inductive Operator where
  | add | sub | mul | div | eq | ne
  deriving DecidableEq, Repr

/-- Binding levels, loosest first. -/
inductive Level where
  | lowest | equals | sum | product | call
  deriving DecidableEq, Repr

namespace Level

def rank : Level → Nat
  | lowest => 0
  | equals => 1
  | sum => 2
  | product => 3
  | call => 4

instance : LT Level := ⟨fun a b => a.rank < b.rank⟩

instance (a b : Level) : Decidable (a < b) := inferInstanceAs (Decidable (a.rank < b.rank))

end Level

namespace Operator

/-- The spelling, which the emitted C shares. -/
def symbol : Operator → String
  | add => "+"
  | sub => "-"
  | mul => "*"
  | div => "/"
  | eq => "=="
  | ne => "!="

def isComparison : Operator → Bool
  | eq | ne => true
  | _ => false

def level : Operator → Level
  | eq | ne => .equals
  | add | sub => .sum
  | mul | div => .product

/-- The operator that a token stands for between two operands. -/
def ofKind? : Token.Kind → Option Operator
  | .symbol .plus => some add
  | .symbol .minus => some sub
  | .symbol .asterisk => some mul
  | .symbol .slash => some div
  | .symbol .equal => some eq
  | .symbol .notEqual => some ne
  | _ => none

end Operator

end ImpToC
