/-!
The lines of a text. A line ends at a line feed, which is not a part of it, nor
is one carriage return in front of it. What follows the last line feed is a
line unless it is empty.
-/
namespace ImpToC.Text

/-- The parts between line feeds. -/
def splitLines : List Char → List (List Char)
  | [] => [[]]
  | c :: cs =>
    if c = '\n' then [] :: splitLines cs
    else
      match splitLines cs with
      | [] => [[c]]
      | line :: rest => (c :: line) :: rest

def dropReturn (line : List Char) : List Char :=
  match line.getLast? with
  | some '\r' => line.dropLast
  | _ => line

def lines (text : String) : List String :=
  let parts := splitLines text.toList
  let last := match parts.getLast? with
    | none | some [] => []
    | some line => [line]
  (parts.dropLast.map dropReturn ++ last).map String.ofList

end ImpToC.Text
