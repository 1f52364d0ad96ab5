import ImpToC.C.Code
import ImpToC.C.Literal
import ImpToC.FunctionTable
import ImpToC.Generate.Error
import ImpToC.Scopes

/-!
C for expressions. Strings are joined by `+` and compared by contents; what is
built from string literals alone becomes one literal.
-/
namespace ImpToC.Expr

/-- Anything but a string literal, a string variable or a sum of strings counts
as an integer, unknown names among them. -/
def type (scopes : Scopes) : Expr → ValueType
  | str _ _ => .str
  | ident name _ => (scopes.lookup? name).getD .int
  | binary .add left right _ =>
    match left.type scopes, right.type scopes with
    | .str, .str => .str
    | _, _ => .int
  | _ => .int

/-- The body of the one literal that a sum of string literals becomes. -/
def literalBody? : Expr → Option String
  | str text _ => some (C.Literal.body text)
  | binary .add left right _ =>
    match left.literalBody?, right.literalBody? with
    | some l, some r => some (l ++ r)
    | _, _ => none
  | _ => none

mutual

/-- Where a name is first used as a variable or called, outside of function
literals. -/
def mention? (name : String) : Expr → Option Location
  | ident other l => if other = name then some l else none
  | binary _ left right _ => (left.mention? name).or (right.mention? name)
  | call callee args _ => (callee.mention? name).or (firstMention? name args)
  | int _ _ | str _ _ | func _ _ _ => none

def firstMention? (name : String) : List Expr → Option Location
  | [] => none
  | e :: es => (e.mention? name).or (firstMention? name es)

end

/-- Whether a value fits an `int` of 32 bits. -/
def fitsInt (value : Int) : Bool := -2147483648 ≤ value && value ≤ 2147483647

/-- An operation on operands whose C is known. -/
def lowerBinary (scopes : Scopes) (op : Operator) (left right : Expr) (l : Location)
    (leftCode rightCode : C.Expr) : Except GenError C.Expr :=
  match left.type scopes, right.type scopes with
  | .int, .int => .ok (.binary op leftCode rightCode)
  | .str, .str =>
    if op = .add then
      match left.literalBody?, right.literalBody? with
      | some a, some b => .ok (.str (a ++ b))
      | _, _ => .ok (.concat leftCode rightCode)
    else if op.isComparison then .ok (.compare op leftCode rightCode)
    else .error ⟨.invalidStringOperation op, l⟩
  | _, _ => .error ⟨.invalidStringOperation op, l⟩

/-- The function that a callee names; variables and other expressions cannot be
called. -/
def callee? (scopes : Scopes) (callee : Expr) (l : Location) : Except GenError String :=
  match callee with
  | ident name _ =>
    match scopes.lookup? name with
    | none => .ok name
    | some _ => .error ⟨.unsupportedCallee name, l⟩
  | _ => .error ⟨.unsupportedCallee "expression", l⟩

/-- Arguments of functions of the program are integers. They count from `index`. -/
def checkArguments (scopes : Scopes) (function : String) (index : Nat) : List Expr → Except GenError Unit
  | [] => .ok ()
  | e :: es =>
    match e.type scopes with
    | .int => checkArguments scopes function (index + 1) es
    | .str => .error ⟨.typeMismatch (.argument index function) .int .str, e.location⟩

/-- Calls of functions outside of the program are not checked. -/
def checkCall (functions : FunctionTable) (scopes : Scopes) (name : String) (args : List Expr)
    (l : Location) : Except GenError Unit :=
  match functions.get? name with
  | none => .ok ()
  | some d =>
    if d.params.length = args.length then checkArguments scopes name 1 args
    else .error ⟨.argumentCountMismatch name d.params.length args.length, l⟩

mutual

def lower (functions : FunctionTable) (scopes : Scopes) : Expr → Except GenError C.Expr
  | ident name l =>
    match scopes.lookup? name with
    | some _ => .ok (.var name)
    | none => .error ⟨.undefinedVariable name, l⟩
  | int value l => if fitsInt value then .ok (.int value) else .error ⟨.integerOutOfRange value, l⟩
  | str text _ => .ok (.str (C.Literal.body text))
  | binary op left right l => do
    let leftCode ← left.lower functions scopes
    let rightCode ← right.lower functions scopes
    lowerBinary scopes op left right l leftCode rightCode
  | call callee args l => do
    let name ← callee? scopes callee l
    checkCall functions scopes name args l
    return .call name (← lowerAll functions scopes args)
  | func _ _ l => .error ⟨.functionLiteralValue, l⟩

def lowerAll (functions : FunctionTable) (scopes : Scopes) : List Expr → Except GenError (List C.Expr)
  | [] => .ok []
  | e :: es => do
    let code ← e.lower functions scopes
    return code :: (← lowerAll functions scopes es)

end

end ImpToC.Expr
