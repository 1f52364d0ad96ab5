import ImpToC.Location

/-!
Tokens of the language: six keywords, the operator and punctuation symbols,
names, integers, strings, the end of the text, and whatever fits none of these.
-/
namespace ImpToC

/-- The words that are never names. Each of them opens a statement. -/
inductive Keyword where
  | print | var | cond | foreign | func | ret
  deriving DecidableEq, Repr

namespace Keyword

def spelling : Keyword → String
  | print => "print"
  | var => "var"
  | cond => "if"
  | foreign => "extern"
  | func => "func"
  | ret => "return"

def all : List Keyword := [print, var, cond, foreign, func, ret]

/-- The keyword spelled exactly so, if there is one. -/
def ofWord? (word : String) : Option Keyword :=
  all.find? fun k => k.spelling == word

end Keyword

inductive Symbol where
  | assign | plus | minus | asterisk | slash | equal | notEqual
  | comma | semicolon | colon | dot | ellipsis
  | leftParen | rightParen | leftBrace | rightBrace
  deriving DecidableEq, Repr

namespace Symbol

def spelling : Symbol → String
  | assign => "="
  | plus => "+"
  | minus => "-"
  | asterisk => "*"
  | slash => "/"
  | equal => "=="
  | notEqual => "!="
  | comma => ","
  | semicolon => ";"
  | colon => ":"
  | dot => "."
  | ellipsis => "..."
  | leftParen => "("
  | rightParen => ")"
  | leftBrace => r"{"
  | rightBrace => r"}"

end Symbol

inductive Token.Kind where
  | illegal
  | endOfFile
  | ident
  | int
  | string
  | symbol (s : Symbol)
  | keyword (k : Keyword)
  deriving DecidableEq, Repr

namespace Token.Kind

/-- How messages name a kind of token. -/
def describe : Kind → String
  | illegal => "illegal token"
  | endOfFile => "end of file"
  | ident => "identifier"
  | int => "integer literal"
  | string => "string literal"
  | symbol s => "'" ++ s.spelling ++ "'"
  | keyword k => "'" ++ k.spelling ++ "'"

/-- Recovery stops in front of such a token. -/
def startsStatement : Kind → Bool
  | keyword _ => true
  | _ => false

end Token.Kind

/-- A token with its text and the place of its first character. The text of a
string is what stands between its quotes. -/
structure Token where
  kind : Token.Kind
  literal : String
  location : Location
  deriving DecidableEq, Repr

namespace Token

/-- How messages name one token: tokens whose text varies show it. -/
def describe (t : Token) : String :=
  match t.kind with
  | .ident => "identifier '" ++ t.literal ++ "'"
  | .int => "integer literal " ++ t.literal
  | .string => "string literal \"" ++ t.literal ++ "\""
  | .illegal => "illegal token '" ++ t.literal ++ "'"
  | kind => kind.describe

/-- The token that stands at the end of a text. -/
def atEnd (location : Location) : Token := ⟨.endOfFile, "", location⟩

end Token

end ImpToC
