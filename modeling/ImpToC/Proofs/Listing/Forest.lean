import ImpToC.Proofs.Listing.Lines

/-!
The nodes of a listing can be told from its lines. The kind of a node is what its label begins
with, up to the colon. Its children are the lines behind it that stand one level deeper, with
all that is deeper still, up to the first line that is not.
-/
namespace ImpToC.Outline

/-- What a line can stand for. The blocks of a branch and of a function have lines of their
own. -/
inductive Kind where
  | ident | int | str | binary | call | lambda
  | declare | assign | print | branch | block | foreign | ret | func | expr
  | body | consequence | alternative
  deriving DecidableEq, Repr

namespace Kind

/-- What all labels of a kind begin with. -/
def opening : Kind → String
  | ident => "Identifier: "
  | int => "Integer: "
  | str => "String: \""
  | binary => "Infix: ("
  | call => "Call:"
  | lambda => "FunctionLiteral: ("
  | declare => "Let: "
  | assign => "Assign: "
  | print => "Print:"
  | branch => "If:"
  | block => "Block:"
  | foreign => "Extern: "
  | ret => "Return:"
  | func => "Function: "
  | expr => "Expression:"
  | body => "Body:"
  | consequence => "Then:"
  | alternative => "Else:"

def all : List Kind :=
  [ident, int, str, binary, call, lambda, declare, assign, print, branch, block, foreign, ret, func, expr,
    body, consequence, alternative]

/-- The word in front of the colon. -/
def word (k : Kind) : List Char := k.opening.toList.takeWhile (· != ':')

def ofWord? (word : List Char) : Option Kind := all.find? fun k => k.word == word

theorem ofWord?_word (k : Kind) : ofWord? k.word = some k := by
  cases k <;> decide

theorem word_eq (k : Kind) (detail : List Char) : (k.opening.toList ++ detail).takeWhile (· != ':') = k.word := by
  cases k <;> rfl

/-- No two kinds have the same word, so a label says which kind it is of. -/
theorem opening_append_inj {k k' : Kind} {detail detail' : String}
    (same : k.opening ++ detail = k'.opening ++ detail') : k = k' ∧ detail = detail' := by
  have words : k.word = k'.word := by
    rw [← word_eq k detail.toList, ← word_eq k' detail'.toList, ← String.toList_append, ← String.toList_append,
      same]
  have kinds : some k = some k' := by rw [← ofWord?_word, words, ofWord?_word]
  cases kinds
  exact ⟨rfl, (String.append_right_inj _).mp same⟩

end Kind

/-- A text with neither quotes nor line feeds in it. -/
def Quiet (text : String) : Prop := ∀ c ∈ text.toList, c ≠ '"' ∧ c ≠ '\n'

theorem Quiet.append {first second : String} (quiet : Quiet first) (quiet' : Quiet second) :
    Quiet (first ++ second) := by
  intro c member
  rw [String.toList_append, List.mem_append] at member
  rcases member with early | late
  · exact quiet c early
  · exact quiet' c late

/-- A class of characters that has neither of the two in it. -/
theorem quiet_of_class {p : Char → Bool} (quote : p '"' = false) (feed : p '\n' = false) {text : String}
    (all : ∀ c ∈ text.toList, p c = true) : Quiet text := by
  intro c member
  have inside := all c member
  constructor
  · rintro rfl
    exact absurd inside (ne_true_of_eq_false quote)
  · rintro rfl
    exact absurd inside (ne_true_of_eq_false feed)

theorem quiet_of_isWord {name : String} (word : IsWord name) : Quiet name :=
  quiet_of_class (by decide) (by decide) word.2

theorem quiet_commaSeparated {names : List String} (words : ∀ name ∈ names, IsWord name) :
    Quiet (commaSeparated names) := by
  induction names with
  | nil => simp [Quiet, commaSeparated]
  | cons name names ih =>
    obtain ⟨first, others⟩ := List.forall_mem_cons.mp words
    cases names with
    | nil =>
      rw [commaSeparated, String.intercalate_singleton]
      exact quiet_of_isWord first
    | cons other names =>
      rw [commaSeparated, String.intercalate_cons_cons]
      exact ((quiet_of_isWord first).append (by simp [Quiet])).append (ih others)

theorem quiet_params {params : List String} (words : ∀ name ∈ params, IsWord name) :
    Quiet (commaSeparated params ++ ")") := (quiet_commaSeparated words).append (by simp [Quiet])

/-- What comes behind the first of some names. -/
def moreNames : List String → List Char
  | [] => []
  | name :: names => ',' :: ' ' :: (commaSeparated (name :: names)).toList

theorem toList_commaSeparated (name : String) (names : List String) :
    (commaSeparated (name :: names)).toList = name.toList ++ moreNames names := by
  cases names with
  | nil => rw [commaSeparated, String.intercalate_singleton, moreNames, List.append_nil]
  | cons other names =>
    rw [commaSeparated, String.intercalate_cons_cons, String.toList_append, String.toList_append,
      List.append_assoc]
    rfl

theorem moreNames_stops (names : List String) :
    ∀ c, (moreNames names).head? = some c → Lexeme.isWordChar c = false := by
  intro c first
  cases names with
  | nil => cases first
  | cons name names =>
    cases first
    decide

/-- Names are told apart by the commas between them. -/
theorem commaSeparated_inj {names names' : List String} (words : ∀ name ∈ names, IsWord name)
    (words' : ∀ name ∈ names', IsWord name) (same : commaSeparated names = commaSeparated names') :
    names = names' := by
  have some {name : String} {names : List String} (word : IsWord name) :
      commaSeparated [] ≠ commaSeparated (name :: names) := by
    intro same
    have shown := toList_commaSeparated name names
    rw [← same] at shown
    exact word.1 (List.append_eq_nil_iff.mp shown.symm).1
  induction names generalizing names' with
  | nil =>
    cases names' with
    | nil => rfl
    | cons name' names' => exact absurd same (some (words' name' List.mem_cons_self))
  | cons name names ih =>
    cases names' with
    | nil => exact absurd same.symm (some (words name List.mem_cons_self))
    | cons name' names' =>
      obtain ⟨word, others⟩ := List.forall_mem_cons.mp words
      obtain ⟨word', others'⟩ := List.forall_mem_cons.mp words'
      have texts := congrArg String.toList same
      rw [toList_commaSeparated, toList_commaSeparated] at texts
      obtain ⟨first, left⟩ :=
        append_inj_of_stop word.2 word'.2 (moreNames_stops names) (moreNames_stops names') texts
      rw [String.toList_inj.mp first]
      cases names with
      | nil =>
        cases names' with
        | nil => rfl
        | cons other' names' => cases left
      | cons other names =>
        cases names' with
        | nil => cases left
        | cons other' names' =>
          have tails := (List.cons.inj (List.cons.inj left).2).2
          rw [ih others others' (String.toList_inj.mp tails)]

theorem params_inj {params params' : List String} (words : ∀ name ∈ params, IsWord name)
    (words' : ∀ name ∈ params', IsWord name)
    (same : commaSeparated params ++ ")" = commaSeparated params' ++ ")") : params = params' :=
  commaSeparated_inj words words' ((String.append_left_inj ")").mp same)

theorem signature_inj {name name' : String} {params params' : List String} (word : IsWord name)
    (word' : IsWord name') (words : ∀ name ∈ params, IsWord name) (words' : ∀ name ∈ params', IsWord name)
    (same : name ++ "(" ++ commaSeparated params ++ ")" = name' ++ "(" ++ commaSeparated params' ++ ")") :
    name = name' ∧ params = params' := by
  have texts := congrArg String.toList same
  simp only [String.append_assoc] at texts
  rw [String.toList_append, @String.toList_append name'] at texts
  have stops (text : String) : ∀ c, ("(" ++ text).toList.head? = some c → Lexeme.isWordChar c = false := by
    intro c first
    rw [String.toList_append] at first
    cases first
    decide
  obtain ⟨first, left⟩ := append_inj_of_stop word.2 word'.2 (stops _) (stops _) texts
  have lists := (String.append_right_inj "(").mp (String.toList_inj.mp left)
  exact ⟨String.toList_inj.mp first, params_inj words words' lists⟩

theorem quiet_repr (n : Nat) : Quiet n.repr := by
  apply quiet_of_class (p := Char.isDigit) (by decide) (by decide)
  intro c member
  rw [Nat.repr_eq_ofList_toDigits, String.toList_ofList] at member
  exact Nat.isDigit_of_mem_toDigits (by decide) (by decide) member

theorem quiet_int (value : Int) : Quiet (toString value) := by
  rw [Int.toString_eq_repr, Int.repr_eq_if]
  split
  · exact quiet_repr _
  · exact Quiet.append (by simp [Quiet]) (quiet_repr _)

namespace Kind

theorem solid (k : Kind) (detail : String) : (k.opening ++ detail).toList.head? ≠ some ' ' := by
  have first : k.opening.toList.head? ≠ some ' ' := by cases k <;> decide
  rw [String.toList_append]
  cases text : k.opening.toList with
  | nil => exact absurd text (by cases k <;> decide)
  | cons c cs =>
    rw [text] at first
    exact first

/-- The labels of strings apart, quotes play no part. -/
theorem legible {k : Kind} (other : k ≠ .str) {detail : String} (quiet : Quiet detail) (depth : Nat) :
    Line.Legible ⟨depth, k.opening ++ detail⟩ := by
  have front : Quiet k.opening := by
    have plain : k.opening.toList.all fun c => c ≠ '"' ∧ c ≠ '\n' := by
      cases k with
      | str => exact absurd rfl other
      | _ => decide
    intro c member
    exact of_decide_eq_true (List.all_eq_true.mp plain c member)
  refine ⟨k.solid detail, ?_⟩
  have whole := front.append quiet
  rw [← List.append_nil (k.opening ++ detail).toList, sealed_append]
  · rfl
  · intro c member
    exact ⟨(whole c member).1, fun feed => absurd feed (whole c member).2⟩

theorem legible_bare {k : Kind} (other : k ≠ .str) (depth : Nat) : Line.Legible ⟨depth, k.opening⟩ := by
  have alone := legible other (by simp [Quiet] : Quiet "") depth
  rwa [String.append_empty] at alone

/-- Whatever a string holds is between the two quotes. -/
theorem legible_str {text : String} (inside : '"' ∉ text.toList) (depth : Nat) :
    Line.Legible ⟨depth, Kind.str.opening ++ (text ++ "\"")⟩ := by
  refine ⟨Kind.str.solid _, ?_⟩
  have shape : (Kind.str.opening ++ (text ++ "\"")).toList = "String: ".toList ++ '"' :: (text.toList ++ ['"']) := by
    rw [String.toList_append, String.toList_append]
    rfl
  have front : "String: ".toList.all fun c => c ≠ '"' ∧ (c = '\n' → false = true) := by decide
  have body : ∀ c ∈ text.toList, c ≠ '"' ∧ (c = '\n' → true = true) := by
    intro c member
    refine ⟨?_, fun _ => rfl⟩
    intro quote
    rw [quote] at member
    exact inside member
  dsimp only
  rw [shape, sealed_append fun c member => of_decide_eq_true (List.all_eq_true.mp front c member), Sealed, if_pos rfl,
    Bool.not_false, sealed_append body]
  rfl

end Kind

/-- A node with its children in order. The detail is what its label says beyond the opening. -/
inductive Node where
  | mk (kind : Kind) (detail : String) (children : List Node)

namespace Node

def kind : Node → Kind
  | .mk kind _ _ => kind

mutual

def lines (depth : Nat) : Node → List Line
  | .mk kind detail children => ⟨depth, kind.opening ++ detail⟩ :: linesOfAll (depth + 1) children

def linesOfAll (depth : Nat) : List Node → List Line
  | [] => []
  | n :: ns => n.lines depth ++ linesOfAll depth ns

end

theorem linesOfAll_singleton (depth : Nat) (n : Node) : linesOfAll depth [n] = n.lines depth := by
  rw [linesOfAll, linesOfAll, List.append_nil]

/-- The lines at some level and below it have ended. -/
def Ends (depth : Nat) (rest : List Line) : Prop := ∀ line, rest.head? = some line → line.depth < depth

theorem ends_nil (depth : Nat) : Ends depth [] := by
  intro line first
  cases first

/-- A node ends where the next one at its level begins. -/
theorem ends_linesOfAll {depth : Nat} {rest : List Line} (ends : Ends depth rest) (ns : List Node) :
    Ends (depth + 1) (linesOfAll depth ns ++ rest) := by
  intro line first
  cases ns with
  | nil => exact Nat.lt_succ_of_lt (ends line first)
  | cons n ns =>
    obtain ⟨kind, detail, children⟩ := n
    rw [linesOfAll, lines] at first
    cases first
    exact Nat.lt_succ_self depth

mutual

/-- Nodes are read off the front of the lines one by one. -/
theorem lines_append_inj (depth : Nat) (n n' : Node) {rest rest' : List Line} (ends : Ends (depth + 1) rest)
    (ends' : Ends (depth + 1) rest') (same : n.lines depth ++ rest = n'.lines depth ++ rest') :
    n = n' ∧ rest = rest' := by
  obtain ⟨kind, detail, children⟩ := n
  obtain ⟨kind', detail', children'⟩ := n'
  rw [lines, lines, List.cons_append, List.cons_append] at same
  obtain ⟨first, others⟩ := List.cons.inj same
  obtain ⟨rfl, rfl⟩ := Kind.opening_append_inj (congrArg Line.label first)
  obtain ⟨rfl, left⟩ := linesOfAll_append_inj (depth + 1) children children' ends ends' others
  exact ⟨rfl, left⟩

theorem linesOfAll_append_inj (depth : Nat) (ns ns' : List Node) {rest rest' : List Line} (ends : Ends depth rest)
    (ends' : Ends depth rest') (same : linesOfAll depth ns ++ rest = linesOfAll depth ns' ++ rest') :
    ns = ns' ∧ rest = rest' := by
  -- Where one of the lists is empty, the other would begin with a line that is too deep.
  have empty {n : Node} {ns : List Node} {rest rest' : List Line} (ends : Ends depth rest)
      (same : rest = linesOfAll depth (n :: ns) ++ rest') : False := by
    obtain ⟨kind, detail, children⟩ := n
    rw [linesOfAll, lines] at same
    exact Nat.lt_irrefl depth (ends ⟨depth, kind.opening ++ detail⟩ (by rw [same]; rfl))
  cases ns with
  | nil =>
    cases ns' with
    | nil => exact ⟨rfl, same⟩
    | cons n' ns' => exact (empty ends same).elim
  | cons n ns =>
    cases ns' with
    | nil => exact (empty ends' same.symm).elim
    | cons n' ns' =>
      rw [linesOfAll, linesOfAll, List.append_assoc, List.append_assoc] at same
      obtain ⟨rfl, others⟩ :=
        lines_append_inj depth n n' (ends_linesOfAll ends ns) (ends_linesOfAll ends' ns') same
      obtain ⟨rfl, left⟩ := linesOfAll_append_inj depth ns ns' ends ends' others
      exact ⟨rfl, left⟩

end

theorem linesOfAll_inj {depth : Nat} {ns ns' : List Node} (same : linesOfAll depth ns = linesOfAll depth ns') :
    ns = ns' := by
  have padded : linesOfAll depth ns ++ [] = linesOfAll depth ns' ++ [] := by rw [same]
  exact (linesOfAll_append_inj depth ns ns' (ends_nil depth) (ends_nil depth) padded).1

end Node

end ImpToC.Outline
