import ImpToC.Proofs.Bytewise.Utf8
import ImpToC.Token.Lexer

/-!
Lexing by bytes. A cursor stands in front of some byte of a text in UTF-8 and looks at single
bytes, one or two of them ahead. It goes on by one byte at a time, and the texts of tokens are
cut out of the text between two of its positions. Such a cut is not made if one of its ends
is inside of a character, so each of these functions can fail. What it cut is kept with each
token. That nothing fails, and that the tokens are those of `Lexer`, is proved in `Agreement`.
-/
namespace ImpToC

/-- The place behind a byte. A byte that goes on with a character takes no column. -/
def Location.pass (l : Location) (b : UInt8) : Location :=
  if Char.ofUInt8 b = '\n' then ⟨l.line + 1, 1⟩
  else if Bytes.continues b then l
  else ⟨l.line, l.column + 1⟩

namespace Bytewise

/-- A part of a text: its bytes, and the offsets in the text between which they stand. -/
structure Stretch where
  start : Nat
  stop : Nat
  bytes : Bytes
  deriving DecidableEq, Repr

namespace Stretch

def whole (bytes : Bytes) : Stretch := ⟨0, bytes.length, bytes⟩

/-- A part of a stretch, if both of its ends are where it may be cut. -/
def cut? (s : Stretch) (start stop : Nat) : Option Stretch :=
  if start ≤ stop ∧ s.bytes.isBoundary start ∧ s.bytes.isBoundary stop then
    some ⟨s.start + start, s.start + stop, (s.bytes.take stop).drop start⟩
  else none

end Stretch

/-- A token as it is found: with bytes for a text, the offset of its first byte, and
everything that was cut out of the text for it. -/
structure Piece where
  kind : Token.Kind
  literal : Bytes
  start : Nat
  location : Location
  cuts : List Stretch
  deriving DecidableEq, Repr

/-- The token, if its bytes are those of a text. -/
def Piece.token? (piece : Piece) : Option Token :=
  piece.literal.toText?.map fun literal => ⟨piece.kind, literal, piece.location⟩

structure Cursor where
  source : Bytes
  position : Nat
  location : Location
  finished : Bool
  deriving DecidableEq, Repr

namespace Cursor

def ofText (text : String) : Cursor := ⟨.ofText text, 0, .start, false⟩

/-- The byte so far ahead, taken for a character. Beyond ASCII that is not the one it belongs
to. -/
def peek (k : Cursor) (ahead : Nat) : Option Char := k.source[k.position + ahead]?.map Char.ofUInt8

/-- Go over one byte. At the end of the text the cursor stays. -/
def advance (k : Cursor) : Cursor :=
  match k.source[k.position]? with
  | none => k
  | some b => { k with position := k.position + 1, location := k.location.pass b }

def advanceBy (k : Cursor) : Nat → Cursor
  | 0 => k
  | n + 1 => k.advance.advanceBy n

/-- How many bytes are left. -/
def left (k : Cursor) : Nat := k.source.length - k.position

theorem advance_left_lt {k : Cursor} {c : Char} (next : k.peek 0 = some c) : k.advance.left < k.left := by
  obtain ⟨b, found, _⟩ := Option.map_eq_some_iff.mp next
  rw [Nat.add_zero] at found
  obtain ⟨inside, _⟩ := List.getElem?_eq_some_iff.mp found
  simp only [advance, found, left]
  omega

theorem advance_left_le (k : Cursor) : k.advance.left ≤ k.left := by
  unfold advance
  split
  · exact Nat.le_refl _
  · simp only [left]
    omega

def skipWhile (p : Char → Bool) (k : Cursor) : Cursor :=
  match next : k.peek 0 with
  | none => k
  | some c =>
    have := advance_left_lt next
    if p c then skipWhile p k.advance else k
termination_by k.left

theorem skipWhile_left_le (p : Char → Bool) (k : Cursor) : (k.skipWhile p).left ≤ k.left := by
  fun_induction skipWhile p k with
  | case1 => exact Nat.le_refl _
  | case2 k c next less inside ih => exact Nat.le_trans ih (Nat.le_of_lt less)
  | case3 => exact Nat.le_refl _

theorem skipWhile_left_lt {p : Char → Bool} {k : Cursor} {c : Char} (next : k.peek 0 = some c)
    (inside : p c = true) : (k.skipWhile p).left < k.left := by
  rw [skipWhile]
  split
  · next ended =>
    rw [next] at ended
    cases ended
  · next d found =>
    obtain rfl : c = d := Option.some.inj (next.symm.trans found)
    rw [if_pos inside]
    exact Nat.lt_of_le_of_lt (skipWhile_left_le p k.advance) (advance_left_lt next)

/-- Inside of a comment: go on behind the bracket that closes it, and tell whether there is
one. -/
def closeComment (k : Cursor) : Bool × Cursor :=
  match next : k.peek 0 with
  | none => (false, k)
  | some c =>
    have := advance_left_lt next
    if c = '*' ∧ k.peek 1 = some '/' then (true, k.advance.advance)
    else closeComment k.advance
termination_by k.left

theorem closeComment_left_le (k : Cursor) : k.closeComment.2.left ≤ k.left := by
  fun_induction closeComment k with
  | case1 => exact Nat.le_refl _
  | case2 k c next close => exact Nat.le_trans (advance_left_le _) (advance_left_le k)
  | case3 k c next less more ih => exact Nat.le_trans ih (Nat.le_of_lt less)

/-- What is found at the cursor. -/
def found (k : Cursor) (kind : Token.Kind) (literal : Bytes) (cuts : List Stretch) : Piece :=
  ⟨kind, literal, k.position, k.location, cuts⟩

/-- What is found if its text is known beforehand: nothing is cut. -/
def known (k : Cursor) (kind : Token.Kind) (text : String) : Piece := k.found kind (.ofText text) []

def sign (k : Cursor) (s : Symbol) : Piece := k.known (.symbol s) s.spelling

theorem comment_left_lt {k : Cursor} {c : Char} (next : k.peek 0 = some c) :
    k.advance.advance.closeComment.2.left < k.left :=
  Nat.lt_of_le_of_lt (closeComment_left_le _) (Nat.lt_of_le_of_lt (advance_left_le _) (advance_left_lt next))

/-- Skip blanks and comments. A comment that is never closed is handed out. -/
def skipGap (k : Cursor) : Option Piece × Cursor :=
  match next : k.peek 0 with
  | none => (none, k)
  | some c =>
    have := advance_left_lt next
    have := comment_left_lt next
    if Gap.isBlank c then skipGap k.advance
    else if stroke : c = '/' then
      have : (k.skipWhile (· != '\n')).left < k.left := skipWhile_left_lt next (by rw [stroke]; rfl)
      if k.peek 1 = some '/' then skipGap (k.skipWhile (· != '\n'))
      else if k.peek 1 = some '*' then
        if k.advance.advance.closeComment.1 then skipGap k.advance.advance.closeComment.2
        else (some (k.known .illegal "/*"), k.advance.advance.closeComment.2)
      else (none, k)
    else (none, k)
termination_by k.left

/-- Skipping never goes back, and over a comment that is not closed it goes on. -/
theorem skipGap_left (k : Cursor) :
    k.skipGap.2.left ≤ k.left ∧ (k.skipGap.1 ≠ none → k.skipGap.2.left < k.left) := by
  have behind {n m l : Nat} {P : Prop} (ih : n ≤ m ∧ (P → n < m)) (less : m ≤ l) : n ≤ l ∧ (P → n < l) :=
    ⟨Nat.le_trans ih.1 less, fun holds => Nat.lt_of_lt_of_le (ih.2 holds) less⟩
  fun_induction skipGap k with
  | case1 => exact ⟨Nat.le_refl _, fun wrong => absurd rfl wrong⟩
  | case2 k c next less comment blank ih => exact behind ih (Nat.le_of_lt less)
  | case3 k line next less comment solid more ih => exact behind ih (Nat.le_of_lt more)
  | case4 k line bracket closed next less comment solid more ih => exact behind ih (Nat.le_of_lt comment)
  | case5 k line bracket closed next less comment => exact ⟨Nat.le_of_lt comment, fun _ => comment⟩
  | case6 => exact ⟨Nat.le_refl _, fun wrong => absurd rfl wrong⟩
  | case7 => exact ⟨Nat.le_refl _, fun wrong => absurd rfl wrong⟩

/-- The text between two positions of a cursor is a token. -/
def upTo? (k after : Cursor) (kind : Bytes → Token.Kind) : Option (Piece × Cursor) :=
  ((Stretch.whole k.source).cut? k.position after.position).map fun s =>
    (k.found (kind s.bytes) s.bytes [s], after)

def wordKind (word : Bytes) : Token.Kind :=
  (Keyword.all.find? fun keyword => Bytes.ofText keyword.spelling == word).elim .ident .keyword

def number? (k : Cursor) : Option (Piece × Cursor) := k.upTo? (k.skipWhile Lexeme.isDigit) fun _ => .int

def word? (k : Cursor) : Option (Piece × Cursor) := k.upTo? (k.skipWhile Lexeme.isWordChar) wordKind

def single? (k : Cursor) (s : Symbol) : Option (Piece × Cursor) := k.upTo? k.advance fun _ => .symbol s

/-- The quotes are no part of what is cut out. Without a closing one the opening one is put
back in front. -/
def string? (k : Cursor) : Option (Piece × Cursor) :=
  let last := k.advance.skipWhile (· != '"')
  ((Stretch.whole k.source).cut? k.advance.position last.position).map fun s =>
    if last.peek 0 = some '"' then (k.found .string s.bytes [s], last.advance)
    else (k.found .illegal (.ofText "\"" ++ s.bytes) [s], last)

def orEqual (k : Cursor) (short : Piece) (long : Symbol) : Piece × Cursor :=
  if k.advance.peek 0 = some '=' then (k.sign long, k.advance.advance) else (short, k.advance)

def dots (k : Cursor) : Piece × Cursor :=
  if k.advance.peek 0 = some '.' then
    if k.advance.advance.peek 0 = some '.' then (k.sign .ellipsis, k.advance.advance.advance)
    else (k.known .illegal "..", k.advance.advance)
  else (k.sign .dot, k.advance)

/-- A character that begins no token. How many bytes it has is seen from the text that is
left, and it is cut out of that. -/
def stray? (k : Cursor) : Option (Piece × Cursor) :=
  ((Stretch.whole k.source).cut? k.position k.source.length).bind fun rest =>
    let width := (rest.bytes.toText?.bind (·.toList.head?)).elim 1 Char.utf8Size
    (rest.cut? 0 width).map fun s => (k.found .illegal s.bytes [rest, s], k.advanceBy width)

/-- The token that begins with the byte `c`. -/
def token? (k : Cursor) (c : Char) : Option (Piece × Cursor) :=
  if c = '"' then k.string?
  else if Lexeme.isDigit c then k.number?
  else if Lexeme.isWordChar c then k.word?
  else if c = '=' then some (k.orEqual (k.sign .assign) .equal)
  else if c = '!' then some (k.orEqual (k.known .illegal "!") .notEqual)
  else if c = '.' then some k.dots
  else
    match Lexeme.symbol? c with
    | some s => k.single? s
    | none => k.stray?

def nextToken? (k : Cursor) : Option (Piece × Cursor) :=
  match k.skipGap with
  | (some piece, after) => some (piece, after)
  | (none, after) =>
    match after.peek 0 with
    | none => some (after.known .endOfFile "", after)
    | some c => after.token? c

theorem advanceBy_left_le (k : Cursor) (n : Nat) : (k.advanceBy n).left ≤ k.left := by
  induction n generalizing k with
  | zero => exact Nat.le_refl _
  | succ n ih => exact Nat.le_trans (ih k.advance) (advance_left_le k)

theorem eq_of_upTo? {k after last : Cursor} {kind : Bytes → Token.Kind} {piece : Piece}
    (found : k.upTo? after kind = some (piece, last)) : last = after := by
  obtain ⟨_, _, same⟩ := Option.map_eq_some_iff.mp found
  exact (congrArg Prod.snd same).symm

theorem string?_left {k last : Cursor} {piece : Piece} (found : k.string? = some (piece, last)) :
    last.left ≤ k.advance.left := by
  obtain ⟨s, _, same⟩ := Option.map_eq_some_iff.mp found
  have inside := skipWhile_left_le (· != '"') k.advance
  split at same
  · cases same
    exact Nat.le_trans (advance_left_le _) inside
  · cases same
    exact inside

theorem orEqual_left (k : Cursor) (short : Piece) (long : Symbol) :
    (k.orEqual short long).2.left ≤ k.advance.left := by
  unfold orEqual
  split
  · exact advance_left_le _
  · exact Nat.le_refl _

theorem dots_left (k : Cursor) : k.dots.2.left ≤ k.advance.left := by
  unfold dots
  split
  · split
    · exact Nat.le_trans (advance_left_le _) (advance_left_le _)
    · exact advance_left_le _
  · exact Nat.le_refl _

theorem stray?_left {k last : Cursor} {piece : Piece} (found : k.stray? = some (piece, last)) :
    last.left ≤ k.advance.left := by
  obtain ⟨rest, _, inner⟩ := Option.bind_eq_some_iff.mp found
  obtain ⟨s, _, same⟩ := Option.map_eq_some_iff.mp inner
  have wide : ∃ n, (rest.bytes.toText?.bind (·.toList.head?)).elim 1 Char.utf8Size = n + 1 := by
    apply Nat.exists_eq_add_one.mpr
    cases rest.bytes.toText?.bind (·.toList.head?) with
    | none => exact Nat.one_pos
    | some c => exact Char.utf8Size_pos c
  obtain ⟨n, width⟩ := wide
  rw [width] at same
  cases same
  exact advanceBy_left_le k.advance n

/-- Each token takes a byte. -/
theorem token?_left {k last : Cursor} {c : Char} {piece : Piece} (next : k.peek 0 = some c)
    (found : k.token? c = some (piece, last)) : last.left < k.left := by
  have less {l : Cursor} (behind : l.left ≤ k.advance.left) : l.left < k.left :=
    Nat.lt_of_le_of_lt behind (advance_left_lt next)
  have given {found : Piece × Cursor} (behind : found.2.left ≤ k.advance.left)
      (same : some found = some (piece, last)) : last.left < k.left := by
    rw [Option.some.inj same] at behind
    exact less behind
  unfold token? at found
  split at found
  · exact less (string?_left found)
  split at found
  · next digit =>
    rw [eq_of_upTo? found]
    exact skipWhile_left_lt next digit
  split at found
  · next letter =>
    rw [eq_of_upTo? found]
    exact skipWhile_left_lt next letter
  split at found
  · exact given (orEqual_left k _ _) found
  split at found
  · exact given (orEqual_left k _ _) found
  split at found
  · exact given (dots_left k) found
  split at found
  · rw [eq_of_upTo? found]
    exact advance_left_lt next
  · exact less (stray?_left found)

theorem nextToken?_left {k last : Cursor} {piece : Piece} (found : k.nextToken? = some (piece, last))
    (more : piece.kind ≠ .endOfFile) : last.left < k.left := by
  have gap := skipGap_left k
  unfold nextToken? at found
  split at found
  · next skipped =>
    cases found
    rw [skipped] at gap
    exact gap.2 (Option.some_ne_none _)
  · next after skipped =>
    rw [skipped] at gap
    split at found
    · cases found
      exact absurd rfl more
    · next c next => exact Nat.lt_of_lt_of_le (token?_left next found) gap.1

/-- The next token of the stream, which stops after the token at the end. -/
def next? (k : Cursor) : Option (Option Piece × Cursor) :=
  if k.finished then some (none, k)
  else k.nextToken?.map fun found =>
    (some found.1, { found.2 with finished := found.1.kind == .endOfFile })

/-- A bound for the length of the stream. -/
def budget (k : Cursor) : Nat := if k.finished then 0 else k.left + 1

theorem next?_budget {k after : Cursor} {piece : Piece} (found : k.next? = some (some piece, after)) :
    after.budget < k.budget := by
  unfold next? at found
  split at found
  · cases found
  · next going =>
    obtain ⟨⟨first, last⟩, given, same⟩ := Option.map_eq_some_iff.mp found
    cases same
    rw [budget, budget, if_neg going]
    split
    · exact Nat.succ_pos _
    · next more =>
      have less := nextToken?_left given (by simpa using more)
      exact Nat.succ_lt_succ less

/-- Whatever is left of the stream. -/
def tokenize? (k : Cursor) : Option (List Piece × Cursor) :=
  match found : k.next? with
  | none => none
  | some (none, after) => some ([], after)
  | some (some piece, after) =>
    have := next?_budget found
    (tokenize? after).map fun tail => (piece :: tail.1, tail.2)
termination_by k.budget

end Cursor

/-- What a lexer can be asked for: the token that comes next, the next one of the stream, or
all that is left of the stream. -/
inductive Request where
  | token
  | next
  | rest
  deriving DecidableEq, Repr

namespace Cursor

def answer? (k : Cursor) : Request → Option (List Piece × Cursor)
  | .token => k.nextToken?.map fun found => ([found.1], found.2)
  | .next => k.next?.map fun found => (found.1.toList, found.2)
  | .rest => k.tokenize?

/-- One request after the other. -/
def answers? (k : Cursor) : List Request → Option (List (List Piece) × Cursor)
  | [] => some ([], k)
  | request :: requests =>
    (k.answer? request).bind fun found =>
      (found.2.answers? requests).map fun others => (found.1 :: others.1, others.2)

end Cursor

end Bytewise

namespace Lexer

open Bytewise (Request)

def answer (lexer : Lexer) : Request → List Token × Lexer
  | .token => ([lexer.nextToken.1], lexer.nextToken.2)
  | .next => (lexer.next?.1.toList, lexer.next?.2)
  | .rest => lexer.tokenize

def answers (lexer : Lexer) : List Request → List (List Token) × Lexer
  | [] => ([], lexer)
  | request :: requests =>
    ((lexer.answer request).1 :: ((lexer.answer request).2.answers requests).1,
      ((lexer.answer request).2.answers requests).2)

end Lexer

end ImpToC
