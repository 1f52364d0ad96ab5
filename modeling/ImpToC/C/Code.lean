import ImpToC.Operator
import ImpToC.ValueType

/-!
The part of C that is emitted, as trees: integer and string variables, output,
branches, blocks, calls and returns. Every function takes and returns integers.
-/
namespace ImpToC.C

inductive Expr where
  | var (name : String)
  | int (value : Int)
  /-- A string literal, by the text between its quotes. -/
  | str (body : String)
  /-- Arithmetic or comparison of integers. -/
  | binary (op : Operator) (left right : Expr)
  /-- Comparison of the contents of two strings. -/
  | compare (op : Operator) (left right : Expr)
  /-- A new string: the contents of two, one after the other. -/
  | concat (left right : Expr)
  | call (function : String) (args : List Expr)
  deriving Repr

inductive Stmt where
  | declare (type : ValueType) (name : String) (value : Option Expr)
  | assign (name : String) (value : Expr)
  /-- Print a value and a line feed. -/
  | print (type : ValueType) (value : Expr)
  | branch (condition : Expr) (consequence : List Stmt) (alternative : Option (List Stmt))
  | block (body : List Stmt)
  /-- The comment that stands for an external declaration. -/
  | foreign (name : String)
  | ret (value : Expr)
  | eval (value : Expr)
  deriving Repr

structure Function where
  name : String
  params : List String
  body : List Stmt
  deriving Repr

/-- A whole program: its functions in order, and the body of the main one. -/
structure Code where
  functions : List Function
  main : List Stmt
  deriving Repr

end ImpToC.C
