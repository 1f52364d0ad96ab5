import Mathlib.Data.List.Forall2
import ImpToC.Proofs.Bytewise.Moves
import ImpToC.Proofs.Lexing.Lossless

/-!
The lexer by bytes finds the tokens of the lexer by characters. Everything it cuts out of the
text begins and ends between two characters, so that no cut fails, and what it cuts out is a
text again. It stays so from token to token, in whatever way the tokens are asked for.
-/
namespace ImpToC

open Bytes (encode)

namespace Lexeme

theorem coarse_isDigit : Bytes.Coarse isDigit :=
  Bytes.coarse_of_ascii fun c digit => by
    have := (isDigit_iff c).mp digit
    omega

theorem coarse_isWordChar : Bytes.Coarse isWordChar :=
  Bytes.coarse_of_ascii fun c letter => by
    have := (isWordChar_iff c).mp letter
    omega

theorem symbol?_plain {c : Char} {s : Symbol} (found : symbol? c = some s) :
    c.toNat < 128 ∧ isDigit c = false ∧ isWordChar c = false := by
  have plain : s.spelling.toList.all fun c => c.toNat < 128 ∧ isDigit c = false ∧ isWordChar c = false := by
    cases s <;> decide
  rw [symbol?_spelling c s found] at plain
  simpa using plain

/-- Characters beyond ASCII begin no token. -/
theorem isStray_of_beyond {c : Char} (beyond : 128 ≤ c.toNat) : IsStray c := by
  refine ⟨?_, ?_, ?_, ?_⟩
  · rw [Bool.eq_false_iff, ne_eq, Rendering.isBlank_iff]
    omega
  · rw [Bool.eq_false_iff, ne_eq, isDigit_iff]
    omega
  · rw [Bool.eq_false_iff, ne_eq, isWordChar_iff]
    omega
  · intro member
    have ascii : "=!\"+-*/,;:.(){}".toList.all fun d => d.toNat < 128 := by decide
    have small := of_decide_eq_true (List.all_eq_true.mp ascii c member)
    omega

/-- A symbol of one character, where no other one can make more of it. -/
theorem read?_single {c : Char} {s : Symbol} {rest : List Char} (known : symbol? c = some s)
    (noEquals : c ≠ '=') (noDot : c ≠ '.') (closed : ∀ body, c :: rest ≠ '/' :: '*' :: body) :
    read? (c :: rest) = some (whole (.symbol s) [c], rest) := by
  have spelt : ofSymbol s = whole (.symbol s) [c] := by rw [ofSymbol, symbol?_spelling c s known]
  have other {d : Char} (unknown : symbol? d = none) : c ≠ d := by
    rintro rfl
    rw [known] at unknown
    cases unknown
  by_cases stroke : c = '/'
  · subst stroke
    cases known
    change some (slash rest) = _
    unfold slash
    split
    · next body => exact absurd rfl (closed body)
    · rfl
  · obtain ⟨_, digit, letter⟩ := symbol?_plain known
    rw [read?, if_neg (other rfl), if_neg noDot, if_neg stroke, if_neg noEquals, if_neg (other rfl),
      if_neg (by simp [digit]), if_neg (by simp [letter]), known, ← spelt]

end Lexeme

namespace Bytewise

/-- The stretch holds whole characters of the text. -/
def Stretch.Within (text : List Char) (s : Stretch) : Prop :=
  ∃ before part rest, text = before ++ (part ++ rest) ∧
    s = ⟨(encode before).length, (encode (before ++ part)).length, encode part⟩

/-- Whole characters can be cut out of whole characters. -/
theorem Stretch.cut?_encode {s : Stretch} {before part rest : List Char}
    (shown : s.bytes = encode (before ++ (part ++ rest))) :
    s.cut? (encode before).length (encode (before ++ part)).length =
      some ⟨s.start + (encode before).length, s.start + (encode (before ++ part)).length, encode part⟩ := by
  have ordered : (encode before).length ≤ (encode (before ++ part)).length := by
    rw [Bytes.encode_append, List.length_append]
    exact Nat.le_add_right _ _
  have first : s.bytes.isBoundary (encode before).length = true := by
    rw [shown]
    exact Bytes.isBoundary_encode before _
  have second : s.bytes.isBoundary (encode (before ++ part)).length = true := by
    rw [shown, ← List.append_assoc]
    exact Bytes.isBoundary_encode (before ++ part) rest
  have taken : (s.bytes.take (encode (before ++ part)).length).drop (encode before).length = encode part := by
    rw [shown, ← List.append_assoc, Bytes.encode_append (before ++ part), List.take_left,
      Bytes.encode_append, List.drop_left]
  rw [Stretch.cut?, if_pos ⟨ordered, first, second⟩, taken]

namespace Cursor

variable {k : Cursor} {before rest : List Char} {c : Char}

/-- The lexeme is found at the cursor, which is then behind it. -/
def Finds (k : Cursor) (text : List Char) (x : Lexeme) (found : Option (Piece × Cursor)) : Prop :=
  ∃ cuts, found = some (k.found x.kind (encode x.literal) cuts, k.moved (encode x.text)) ∧
    ∀ s ∈ cuts, s.Within text

theorem token?_found (k : Cursor) (kind : Token.Kind) (literal : List Char) (cuts : List Stretch) :
    (k.found kind (encode literal) cuts).token? = some ⟨kind, String.ofList literal, k.location⟩ := by
  rw [Piece.token?, found, Bytes.toText?_encode]
  rfl

theorem known_eq (k : Cursor) (kind : Token.Kind) (spelling : String) :
    k.known kind spelling = k.found kind (encode spelling.toList) [] := by
  rw [known, Bytes.ofText_eq_encode]

theorem finds_known {text : List Char} {x : Lexeme} {spelling : String}
    (literal : x.literal = spelling.toList) :
    Finds k text x (some (k.known x.kind spelling, k.moved (encode x.text))) := by
  refine ⟨[], ?_, fun s member => by cases member⟩
  rw [known_eq, literal]

theorem wordKind_encode (word : List Char) : Lexeme.ofWord word = .whole (wordKind (encode word)) word := by
  have same (text : String) : (Bytes.ofText text == encode word) = (text == String.ofList word) := by
    rw [Bool.eq_iff_iff, beq_iff_eq, beq_iff_eq]
    constructor
    · intro bytes
      have texts := congrArg Bytes.toText? bytes
      rw [Bytes.toText?_ofText, Bytes.toText?_encode] at texts
      exact Option.some.inj texts
    · rintro rfl
      rw [Bytes.ofText_eq_encode, String.toList_ofList]
  unfold Lexeme.ofWord wordKind Keyword.ofWord?
  simp only [same]
  split
  · next found => rw [found]; rfl
  · next missing => rw [missing]; rfl

namespace Stands

theorem cut? {part : List Char} (stands : Stands k before (part ++ rest)) :
    ∃ s : Stretch, (Stretch.whole k.source).cut? k.position (k.moved (encode part)).position = some s ∧
      s.bytes = encode part ∧ s.start = k.position ∧ s.Within (before ++ (part ++ rest)) := by
  have shown : (Stretch.whole k.source).bytes = encode (before ++ (part ++ rest)) := stands.source
  rw [stands.moved.position, stands.position, Stretch.cut?_encode shown]
  refine ⟨_, rfl, rfl, Nat.zero_add _, before, part, rest, rfl, ?_⟩
  simp only [Stretch.whole, Nat.zero_add]

theorem upTo? {part : List Char} (stands : Stands k before (part ++ rest)) (kind : Bytes → Token.Kind) :
    Finds k (before ++ (part ++ rest)) (.whole (kind (encode part)) part)
      (k.upTo? (k.moved (encode part)) kind) := by
  obtain ⟨s, cut, bytes, _, within⟩ := stands.cut?
  refine ⟨[s], ?_, List.forall_mem_singleton.mpr within⟩
  rw [Cursor.upTo?, cut, Option.map_some, bytes]
  rfl

/-- A run of characters of a class. -/
theorem run? {p : Char → Bool} (coarse : Bytes.Coarse p) (inside : p c = true)
    (stands : Stands k before (c :: rest)) (kind : Bytes → Token.Kind) :
    Finds k (before ++ c :: rest)
      (.whole (kind (encode (c :: rest.takeWhile p))) (c :: rest.takeWhile p))
      (k.upTo? (k.skipWhile p) kind) := by
  have parted : c :: rest = (c :: rest.takeWhile p) ++ rest.dropWhile p := by
    rw [List.cons_append, List.takeWhile_append_dropWhile]
  rw [stands.skipWhile coarse, List.takeWhile_cons_of_pos inside]
  rw [parted] at stands ⊢
  exact stands.upTo? kind

theorem string? (stands : Stands k before ('"' :: rest)) :
    Finds k (before ++ '"' :: rest) (Lexeme.quoted rest).1 k.string? := by
  have behind := stands.step
  have opened : k.advance = k.moved (encode ['"']) := stands.advance (by decide)
  have skipped := behind.skipWhile (Bytes.coarse_bne (by decide : '"'.toNat < 128))
  have parted : rest.takeWhile (· != '"') ++ rest.dropWhile (· != '"') = rest :=
    List.takeWhile_append_dropWhile
  rw [← parted] at behind
  obtain ⟨s, cut, bytes, _, within⟩ := behind.cut?
  rw [moved_source] at cut
  have inside : ∀ t ∈ [s], t.Within (before ++ '"' :: rest) := by
    rw [parted, List.append_assoc] at within
    exact List.forall_mem_singleton.mpr within
  have last := behind.moved
  unfold Cursor.string? Lexeme.quoted
  dsimp only
  rw [opened, skipped, cut, Option.map_some, bytes]
  cases tail : rest.dropWhile (· != '"') with
  | nil =>
    rw [tail] at last
    rw [last.peek_nil, if_neg (by simp), moved_encode]
    refine ⟨[s], ?_, inside⟩
    rw [Bytes.ofText_eq_encode, ← Bytes.encode_append]
    rfl
  | cons quote more =>
    rw [tail] at last
    have stopped := endsRun_dropWhile (· != '"') rest
    rw [tail, endsRun_cons] at stopped
    obtain rfl : quote = '"' := by simpa using stopped
    rw [last.peek_ascii (by decide), if_pos rfl, last.advance (by decide), moved_encode, moved_encode]
    exact ⟨[s], rfl, inside⟩

theorem orEqual {short : Lexeme} {spelling : String} {long : Symbol} (ascii : c.toNat < 128)
    (single : short.text = [c]) (literal : short.literal = spelling.toList)
    (double : long.spelling.toList = [c, '=']) (stands : Stands k before (c :: rest)) :
    Finds k (before ++ c :: rest) (Lexeme.orEqual short long rest).1
      (some (k.orEqual (k.known short.kind spelling) long)) := by
  have behind := stands.step
  rw [Cursor.orEqual, stands.advance ascii]
  unfold Lexeme.orEqual
  split
  · next more =>
    have both : (k.moved (encode [c])).advance = k.moved (encode long.spelling.toList) := by
      rw [behind.advance (by decide), moved_encode, double]
      rfl
    rw [if_pos (behind.peek_ascii (by decide)), both]
    exact finds_known rfl
  · next other =>
    have missing : (k.moved (encode [c])).peek 0 ≠ some '=' := by
      rw [ne_eq, behind.peek_eq_some_iff (by decide)]
      rintro ⟨more, rfl⟩
      exact other more rfl
    rw [if_neg missing, ← single]
    exact finds_known literal

theorem dots (stands : Stands k before ('.' :: rest)) :
    Finds k (before ++ '.' :: rest) (Lexeme.dots rest).1 (some k.dots) := by
  have one := stands.step
  have both {more : List Char} (second : rest = '.' :: more) :
      (k.moved (encode ['.'])).advance = k.moved (encode ['.', '.']) := by
    subst second
    rw [one.advance (by decide), moved_encode]
    rfl
  rw [Cursor.dots, stands.advance (by decide)]
  unfold Lexeme.dots
  split
  · next more =>
    have two : Stands (k.moved (encode ['.', '.'])) (before ++ ['.', '.']) ('.' :: more) := stands.moved
    rw [if_pos (one.peek_ascii (by decide)), both rfl, if_pos (two.peek_ascii (by decide)),
      two.advance (by decide), moved_encode]
    exact finds_known rfl
  · next more other =>
    have two : Stands (k.moved (encode ['.', '.'])) (before ++ ['.', '.']) more := stands.moved
    have third : (k.moved (encode ['.', '.'])).peek 0 ≠ some '.' := by
      rw [ne_eq, two.peek_eq_some_iff (by decide)]
      rintro ⟨last, rfl⟩
      exact other last rfl
    rw [if_pos (one.peek_ascii (by decide)), both rfl, if_neg third]
    exact finds_known rfl
  · next other =>
    have second : (k.moved (encode ['.'])).peek 0 ≠ some '.' := by
      rw [ne_eq, one.peek_eq_some_iff (by decide)]
      rintro ⟨more, rfl⟩
      exact other more rfl
    rw [if_neg second]
    exact finds_known rfl

theorem stray? (stands : Stands k before (c :: rest)) :
    Finds k (before ++ c :: rest) (.illegal [c]) k.stray? := by
  -- Two cuts: all that is left, and its first character out of that.
  have whole : Stands k before ((c :: rest) ++ []) := by rwa [List.append_nil]
  obtain ⟨r, cut, bytes, start, within⟩ := whole.cut?
  have ended : (k.moved (encode (c :: rest))).position = k.source.length := by
    rw [whole.moved.position, stands.source]
  have width : (r.bytes.toText?.bind (·.toList.head?)).elim 1 Char.utf8Size = (encode [c]).length := by
    rw [bytes, Bytes.toText?_encode]
    simp [encode]
  have shown : r.bytes = encode ([] ++ ([c] ++ rest)) := bytes
  have inner : r.cut? 0 (encode [c]).length = some ⟨r.start, r.start + (encode [c]).length, encode [c]⟩ :=
    Stretch.cut?_encode shown
  rw [ended] at cut
  refine ⟨[r, ⟨r.start, r.start + (encode [c]).length, encode [c]⟩], ?_, ?_⟩
  · rw [Cursor.stray?, cut, Option.bind_some]
    dsimp only
    rw [width, inner, Option.map_some, advanceBy_eq stands.ahead_cons]
    rfl
  · rw [List.append_nil] at within
    refine List.forall_mem_cons.mpr ⟨within, List.forall_mem_singleton.mpr ⟨before, [c], rest, rfl, ?_⟩⟩
    rw [start, stands.position, Bytes.encode_append, List.length_append]

end Stands

theorem token?_stray {d : Char} (stray : Lexeme.IsStray d) (k : Cursor) : k.token? d = k.stray? := by
  rw [Cursor.token?, if_neg (stray.ne (by decide)), if_neg (by simp [stray.2.1]),
    if_neg (by simp [stray.2.2.1]), if_neg (stray.ne (by decide)), if_neg (stray.ne (by decide)),
    if_neg (stray.ne (by decide)), stray.symbol?_eq_none]

/-- The token is chosen by the first byte, and it is the lexeme that is read there. -/
theorem Stands.token? {more : List Char} {x : Lexeme} (stands : Stands k before (c :: rest))
    (solid : Gap.piece? (c :: rest) = none) (closed : ∀ body, c :: rest ≠ '/' :: '*' :: body)
    (found : Lexeme.read? (c :: rest) = some (x, more)) :
    ∃ d, k.peek 0 = some d ∧ Finds k (before ++ c :: rest) x (k.token? d) := by
  have given {y : Lexeme × List Char} (shown : Lexeme.read? (c :: rest) = some y) : x = y.1 := by
    rw [found] at shown
    exact congrArg Prod.fst (Option.some.inj shown)
  have strayed (stray : Lexeme.IsStray c) : x = .illegal [c] := given (Lexeme.stray_isNext stray rest).2
  obtain ⟨b, part, next⟩ := stands.peek_cons
  refine ⟨Char.ofUInt8 b, next, ?_⟩
  rcases Bytes.ofUInt8_of_mem part with same | ⟨beyond, far⟩
  · rw [same]
    unfold Cursor.token?
    split
    · next quote =>
      subst quote
      rw [given rfl]
      exact stands.string?
    next noQuote =>
    split
    · next digit =>
      rw [given (Rendering.read?_digit digit)]
      exact stands.run? Lexeme.coarse_isDigit digit fun _ => .int
    next noDigit =>
    split
    · next letter =>
      rw [given (Rendering.read?_word letter), wordKind_encode]
      exact stands.run? Lexeme.coarse_isWordChar letter wordKind
    next noLetter =>
    split
    · next equals =>
      subst equals
      rw [given rfl]
      exact stands.orEqual (by decide) rfl rfl rfl
    next noEquals =>
    split
    · next bang =>
      subst bang
      rw [given rfl]
      exact stands.orEqual (by decide) rfl rfl rfl
    next noBang =>
    split
    · next dot =>
      subst dot
      rw [given rfl]
      exact stands.dots
    next noDot =>
    split
    · next s known =>
      rw [given (Lexeme.read?_single known noEquals noDot closed), single?,
        stands.advance (Lexeme.symbol?_plain known).1]
      exact Stands.upTo? stands _
    · next missing =>
      rw [strayed (Lexeme.isStray_of_symbol? (Gap.isBlank_of_solid solid) (by simpa using noDigit)
        (by simpa using noLetter) ⟨noQuote, noBang⟩ missing)]
      exact stands.stray?
  · -- The byte is not the character, but neither of them begins a token.
    rw [token?_stray (Lexeme.isStray_of_beyond far), strayed (Lexeme.isStray_of_beyond beyond)]
    exact stands.stray?

/-- Gaps are gone over before a token is found. -/
theorem Stands.nextToken?_gap (stands : Stands k before rest) (l : Location) :
    ∃ gap, rest = gap ++ (Gap.skip l rest).2 ∧ (Gap.skip l rest).1 = l.after gap ∧
      Gap.piece? (Gap.skip l rest).2 = none ∧ k.nextToken? = (k.moved (encode gap)).nextToken? := by
  fun_induction Gap.skip l rest generalizing k before with
  | case1 l cs ended => exact ⟨[], rfl, rfl, ended, rfl⟩
  | case2 l cs piece rest found _ ih =>
    have skipped : k.nextToken? = (k.moved (encode piece)).nextToken? := by
      rw [Cursor.nextToken?, stands.skipGap_piece found, ← Cursor.nextToken?]
    have whole := (Gap.piece?_eq_append _ _ _ found).1
    rw [whole] at stands
    obtain ⟨gap, text, place, solid, next⟩ := ih stands.moved
    refine ⟨piece ++ gap, ?_, ?_, solid, ?_⟩
    · rw [List.append_assoc, ← text]
      exact whole
    · rw [place, Location.after_append]
    · rw [skipped, next, moved_encode]

theorem Stands.nextToken?_end (stands : Stands k before []) :
    k.nextToken? = some (k.known .endOfFile "", k) := by
  rw [Cursor.nextToken?, skipGap_end stands.peek_nil]
  dsimp only
  rw [stands.peek_nil]

theorem Stands.nextToken?_solid {more : List Char} {x : Lexeme} (stands : Stands k before rest)
    (solid : Gap.piece? rest = none) (found : Lexeme.read? rest = some (x, more)) :
    Finds k (before ++ rest) x k.nextToken? := by
  by_cases opened : ∃ body, rest = '/' :: '*' :: body
  · obtain ⟨body, rfl⟩ := opened
    cases found
    rw [Cursor.nextToken?, stands.skipGap_open solid]
    exact finds_known rfl
  · have closed : ∀ body, rest ≠ '/' :: '*' :: body := fun body same => opened ⟨body, same⟩
    cases rest with
    | nil => cases found
    | cons c rest =>
      obtain ⟨d, next, finds⟩ := stands.token? solid closed found
      rw [Cursor.nextToken?, stands.skipGap_solid solid closed]
      dsimp only
      rw [next]
      exact finds

end Cursor

/-- What a text begins with where a token stands. -/
inductive Begins (t : Token) : List Char → Prop where
  | ended (kind : t.kind = .endOfFile) : Begins t []
  | read {part rest : List Char} (read : Lexeme.Reads t.kind t.literal.toList part rest) :
      Begins t (part ++ rest)

/-- The piece of the text `text` is the token: its bytes are the text of it, what was cut out
are whole characters, and it starts with the token's first byte. -/
structure Piece.Shows (text : List Char) (piece : Piece) (t : Token) : Prop where
  token : piece.token? = some t
  cuts : ∀ s ∈ piece.cuts, s.Within text
  place : ∃ before rest, text = before ++ rest ∧ piece.start = (encode before).length ∧
    t.location = Location.start.after before ∧ Begins t rest

theorem Piece.Shows.kind_eq {text : List Char} {piece : Piece} {t : Token} (shown : piece.Shows text t) :
    piece.kind = t.kind := by
  obtain ⟨literal, _, same⟩ := Option.map_eq_some_iff.mp shown.token
  exact congrArg Token.kind same

end Bytewise

namespace Lexer

variable {lexer after : Lexer}

theorem tokenize_of_none (ended : lexer.next? = (none, after)) : lexer.tokenize = ([], after) := by
  unfold next? at ended
  split at ended
  · next finished =>
    cases ended
    rw [tokenize, if_pos finished]
  · cases ended

theorem tokenize_of_some {t : Token} (next : lexer.next? = (some t, after)) :
    lexer.tokenize = (t :: after.tokenize.1, after.tokenize.2) := by
  obtain ⟨gap, _, _, _, solid⟩ := Gap.skip_fills lexer.location lexer.rest
  unfold next? at next
  split at next
  · cases next
  · next more =>
    cases skip : Gap.skip lexer.location lexer.rest with
    | mk place text =>
      rw [skip] at solid
      rw [tokenize, if_neg more, Tokens.scan_eq, skip]
      cases found : Lexeme.read? text with
      | none =>
        simp only [nextToken, skip, found] at next
        cases next
        rfl
      | some parts =>
        obtain ⟨x, rest⟩ := parts
        have other : x.kind ≠ .endOfFile := (Lexeme.read?_isRead solid found).kind_ne
        simp only [nextToken, skip, found, beq_eq_false_iff_ne.mpr other] at next
        cases next
        rfl

end Lexer

namespace Bytewise.Cursor

/-- Both lexers stand in front of the same character of the text. -/
structure Agrees (text : List Char) (k : Cursor) (lexer : Lexer) : Prop where
  stands : ∃ before, text = before ++ lexer.rest ∧ Stands k before lexer.rest
  location : lexer.location = k.location
  finished : lexer.finished = k.finished

variable {text : List Char} {k : Cursor} {lexer : Lexer}

theorem agrees_ofText (source : String) : Agrees source.toList (ofText source) (Lexer.ofText source) where
  stands := ⟨[], rfl, stands_ofText source⟩
  location := rfl
  finished := rfl

namespace Agrees

theorem nextToken? (agrees : Agrees text k lexer) :
    ∃ piece after, k.nextToken? = some (piece, after) ∧ piece.Shows text lexer.nextToken.1 ∧
      Agrees text after lexer.nextToken.2 := by
  obtain ⟨before, whole, stands⟩ := agrees.stands
  obtain ⟨gap, parted, place, solid, skipped⟩ := stands.nextToken?_gap lexer.location
  unfold Lexer.nextToken
  split
  next l rest skip =>
  rw [skip] at parted place solid
  dsimp only at parted place solid
  subst place
  rw [parted] at stands whole
  have behind := stands.moved
  rw [← List.append_assoc] at whole
  have start : lexer.location.after gap = Location.start.after (before ++ gap) := by
    rw [agrees.location, stands.location, Location.after_append]
  rw [skipped]
  split
  · next ended =>
    obtain rfl := Lexeme.eq_nil_of_read? ended
    refine ⟨_, _, behind.nextToken?_end, ⟨?_, ?_, before ++ gap, [], whole, behind.position, start, ?_⟩,
      ⟨before ++ gap, whole, behind⟩, start.trans behind.location.symm, agrees.finished⟩
    · rw [known_eq, token?_found, behind.location, ← start]
      rfl
    · intro s member
      cases member
    · exact .ended rfl
  · next x more found =>
    obtain ⟨cuts, given, within⟩ := behind.nextToken?_solid solid found
    have text := Lexeme.read?_eq_append _ _ _ found
    have read := Lexeme.read?_isRead solid found
    rw [text] at behind
    have last := behind.moved
    refine ⟨_, _, given, ⟨?_, ?_, before ++ gap, rest, whole, behind.position, start, ?_⟩,
      ⟨before ++ gap ++ x.text, ?_, last⟩, ?_, agrees.finished⟩
    · rw [token?_found, behind.location, ← start]
    · rw [whole]
      exact within
    · rw [text]
      refine .read ?_
      rw [String.toList_ofList]
      exact read
    · rw [whole, text, List.append_assoc (before ++ gap)]
    · rw [start, last.location, Location.after_append _ (before ++ gap)]

theorem next? (agrees : Agrees text k lexer) :
    ∃ answer after, k.next? = some (answer, after) ∧ Option.Rel (Piece.Shows text) answer lexer.next?.1 ∧
      Agrees text after lexer.next?.2 := by
  unfold Cursor.next? Lexer.next?
  rw [agrees.finished]
  split
  · exact ⟨_, _, rfl, .none, agrees⟩
  · obtain ⟨piece, after, found, shown, behind⟩ := agrees.nextToken?
    obtain ⟨before, whole, stands⟩ := behind.stands
    rw [found, Option.map_some]
    refine ⟨_, _, rfl, .some shown, ?_⟩
    exact ⟨⟨before, whole, stands.source, stands.position, stands.location⟩, behind.location,
      congrArg (· == .endOfFile) shown.kind_eq.symm⟩

theorem tokenize? (agrees : Agrees text k lexer) :
    ∃ pieces after, k.tokenize? = some (pieces, after) ∧
      List.Forall₂ (Piece.Shows text) pieces lexer.tokenize.1 ∧ Agrees text after lexer.tokenize.2 := by
  -- Along the stream of the cursor: the other lexer has a token to hand out whenever it has one.
  fun_induction Cursor.tokenize? k generalizing lexer with
  | case1 k failed =>
    obtain ⟨answer, after, found, _⟩ := agrees.next?
    rw [failed] at found
    cases found
  | case2 k last ended =>
    obtain ⟨answer, after, found, shown, behind⟩ := agrees.next?
    rw [ended] at found
    cases found
    cases told : lexer.next? with
    | mk answer later =>
      rw [told] at shown behind
      cases shown
      rw [Lexer.tokenize_of_none told]
      exact ⟨[], last, rfl, .nil, behind⟩
  | case3 k piece last next less ih =>
    obtain ⟨answer, after, found, shown, behind⟩ := agrees.next?
    rw [next] at found
    cases found
    cases told : lexer.next? with
    | mk answer later =>
      rw [told] at shown behind
      cases shown with
      | some shown =>
        obtain ⟨pieces, final, others, all, stays⟩ := ih behind
        rw [Lexer.tokenize_of_some told, others]
        exact ⟨piece :: pieces, final, rfl, .cons shown all, stays⟩

theorem answer? (agrees : Agrees text k lexer) (request : Request) :
    ∃ pieces after, k.answer? request = some (pieces, after) ∧
      List.Forall₂ (Piece.Shows text) pieces (lexer.answer request).1 ∧
      Agrees text after (lexer.answer request).2 := by
  cases request with
  | token =>
    obtain ⟨piece, after, found, shown, behind⟩ := agrees.nextToken?
    exact ⟨[piece], after, by rw [Cursor.answer?, found]; rfl, .cons shown .nil, behind⟩
  | next =>
    obtain ⟨answer, after, found, shown, behind⟩ := agrees.next?
    refine ⟨answer.toList, after, by rw [Cursor.answer?, found]; rfl, ?_, behind⟩
    change List.Forall₂ _ answer.toList lexer.next?.1.toList
    generalize lexer.next?.1 = told at shown
    cases shown with
    | some shown => exact .cons shown .nil
    | none => exact .nil
  | rest => exact agrees.tokenize?

theorem answers? (agrees : Agrees text k lexer) (requests : List Request) :
    ∃ answers after, k.answers? requests = some (answers, after) ∧
      List.Forall₂ (List.Forall₂ (Piece.Shows text)) answers (lexer.answers requests).1 ∧
      Agrees text after (lexer.answers requests).2 := by
  induction requests generalizing k lexer with
  | nil => exact ⟨[], k, rfl, .nil, agrees⟩
  | cons request requests ih =>
    obtain ⟨pieces, after, found, shown, behind⟩ := agrees.answer? request
    obtain ⟨answers, last, others, all, stays⟩ := ih behind
    refine ⟨pieces :: answers, last, ?_, .cons shown all, stays⟩
    rw [Cursor.answers?, found, Option.bind_some, others]
    rfl

end Agrees

end Bytewise.Cursor

end ImpToC
