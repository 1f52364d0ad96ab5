/-!
Bodies of C string literals. A backslash that C reads as a one-character escape
passes through with its character, any other is doubled, and line feeds,
carriage returns and tabs are written as escapes. So no text ends a literal
early. Octal and hexadecimal escapes are not passed through: they would take in
digits of a literal joined behind them.
-/
namespace ImpToC.C.Literal

/-- The characters that name a one-character escape. -/
def isEscape (c : Char) : Bool :=
  "ntr\\'\"?abfv".toList.contains c

/-- A character that follows no backslash. -/
def encodeChar (c : Char) : List Char :=
  if c = '\\' then ['\\', '\\']
  else if c = '\n' then ['\\', 'n']
  else if c = '\r' then ['\\', 'r']
  else if c = '\t' then ['\\', 't']
  else [c]

/-- The body of the literal for the text of a string. -/
def encode : List Char → List Char
  | [] => []
  | '\\' :: c :: cs =>
    if isEscape c then '\\' :: c :: encode cs else '\\' :: '\\' :: encode (c :: cs)
  | c :: cs => encodeChar c ++ encode cs

/-- The body for a text, as a text. -/
def body (text : String) : String := String.ofList (encode text.toList)

end ImpToC.C.Literal
