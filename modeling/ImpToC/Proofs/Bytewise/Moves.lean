import ImpToC.Proofs.Bytewise.Cursor
import ImpToC.Proofs.Lexing.Spans

/-!
How a cursor goes over characters. It tests single bytes, but no test can tell the bytes of a
character from each other: runs, comments and gaps are gone over by whole characters, the
same ones that are taken off the text character by character. So a cursor between two
characters gets to another place between two characters, and the place it counts there is
the place of the character behind it.
-/
namespace ImpToC

open Bytes (encode)

namespace Location

theorem pass_of_continues (l : Location) {b : UInt8} (inside : Bytes.continues b = true) : l.pass b = l := by
  have other : Char.ofUInt8 b ≠ '\n' := by
    intro feed
    have value : b.toNat = 10 := congrArg Char.toNat feed
    have := (Bytes.continues_iff b).mp inside
    omega
  rw [pass, if_neg other, if_pos inside]

/-- The first byte of a character takes its column or ends its line, the others do nothing. -/
theorem foldl_pass_encodeChar (l : Location) (c : Char) :
    (String.utf8EncodeChar c).foldl pass l = l.next c := by
  obtain ⟨b, bs, shown, first, more⟩ := Bytes.encodeChar_eq_cons c
  have rest (l : Location) : bs.foldl pass l = l := by
    clear shown
    induction bs with
    | nil => rfl
    | cons d bs ih =>
      obtain ⟨inside, others⟩ := List.forall_mem_cons.mp more
      rw [List.foldl_cons, pass_of_continues l inside, ih others]
  have feed : Char.ofUInt8 b = '\n' ↔ c = '\n' :=
    Bytes.ofUInt8_eq_iff (by decide) (by simp [shown])
  rw [shown, List.foldl_cons, rest, pass, next]
  simp [feed, first]

theorem foldl_pass_encode (l : Location) (cs : List Char) : (encode cs).foldl pass l = l.after cs := by
  induction cs generalizing l with
  | nil => rfl
  | cons c cs ih => rw [Bytes.encode_cons, List.foldl_append, foldl_pass_encodeChar, ih, after_cons]

end Location

namespace Bytewise.Cursor

/-- The bytes that are left. -/
def ahead (k : Cursor) : Bytes := k.source.drop k.position

/-- The cursor behind these bytes. -/
def moved (k : Cursor) (bytes : Bytes) : Cursor :=
  { k with position := k.position + bytes.length, location := bytes.foldl Location.pass k.location }

@[simp] theorem moved_nil (k : Cursor) : k.moved [] = k := rfl

@[simp] theorem moved_source (k : Cursor) (bytes : Bytes) : (k.moved bytes).source = k.source := rfl

@[simp] theorem moved_moved (k : Cursor) (first second : Bytes) :
    (k.moved first).moved second = k.moved (first ++ second) := by
  simp [moved, Nat.add_assoc]

theorem moved_encode (k : Cursor) (first second : List Char) :
    (k.moved (encode first)).moved (encode second) = k.moved (encode (first ++ second)) := by
  rw [moved_moved, Bytes.encode_append]

variable {k : Cursor} {bytes more : Bytes} {b : UInt8}

theorem ahead_moved (next : k.ahead = bytes ++ more) : (k.moved bytes).ahead = more := by
  rw [ahead, moved, ← List.drop_drop]
  change k.ahead.drop bytes.length = more
  rw [next, List.drop_left]

theorem peek_eq (k : Cursor) (n : Nat) : k.peek n = k.ahead[n]?.map Char.ofUInt8 := by
  rw [peek, ahead, List.getElem?_drop]

theorem ahead_of_peek {c : Char} (next : k.peek 0 = some c) :
    ∃ b more, k.ahead = b :: more ∧ Char.ofUInt8 b = c := by
  rw [peek_eq] at next
  obtain ⟨b, first, shown⟩ := Option.map_eq_some_iff.mp next
  obtain ⟨more, whole⟩ := List.head?_eq_some_iff.mp (List.head?_eq_getElem?.trans first)
  exact ⟨b, more, whole, shown⟩

theorem ahead_of_peek_none (ended : k.peek 0 = none) : k.ahead = [] := by
  rw [peek_eq, Option.map_eq_none_iff, ← List.head?_eq_getElem?] at ended
  exact List.head?_eq_none_iff.mp ended

theorem advance_eq (next : k.ahead = b :: more) : k.advance = k.moved [b] := by
  have first : k.source[k.position]? = some b := by
    rw [← Nat.add_zero k.position, ← List.getElem?_drop]
    change k.ahead[0]? = some b
    rw [next]
    rfl
  rw [advance, first]
  rfl

theorem advanceBy_eq (next : k.ahead = bytes ++ more) : k.advanceBy bytes.length = k.moved bytes := by
  induction bytes generalizing k with
  | nil => rfl
  | cons b bytes ih =>
    have behind : (k.moved [b]).ahead = bytes ++ more := ahead_moved next
    rw [List.length_cons, advanceBy, advance_eq next, ih behind, moved_moved]
    rfl

theorem skipWhile_eq (p : Char → Bool) (k : Cursor) :
    k.skipWhile p = k.moved (k.ahead.takeWhile (p ∘ Char.ofUInt8)) := by
  fun_induction skipWhile p k with
  | case1 k ended =>
    rw [ahead_of_peek_none ended]
    rfl
  | case2 k c next less inside ih =>
    obtain ⟨b, more, whole, shown⟩ := ahead_of_peek next
    have step := advance_eq whole
    have behind : (k.moved [b]).ahead = more := ahead_moved whole
    rw [step, behind, moved_moved] at ih
    have first : (p ∘ Char.ofUInt8) b = true := by
      rw [Function.comp_apply, shown]
      exact inside
    rw [step, ih, whole, List.takeWhile_cons_of_pos first]
    rfl
  | case3 k c next less outside =>
    obtain ⟨b, more, whole, shown⟩ := ahead_of_peek next
    have first : ¬ (p ∘ Char.ofUInt8) b = true := by
      rw [Function.comp_apply, shown]
      exact outside
    rw [whole, List.takeWhile_cons_of_neg first, moved_nil]

theorem closeComment_end (ended : k.peek 0 = none) : k.closeComment = (false, k) := by
  rw [closeComment]
  split
  · rfl
  · next next =>
    rw [ended] at next
    cases next

theorem closeComment_eq {c : Char} (next : k.peek 0 = some c) :
    k.closeComment =
      if c = '*' ∧ k.peek 1 = some '/' then (true, k.advance.advance) else k.advance.closeComment := by
  rw [closeComment]
  split
  · next ended =>
    rw [next] at ended
    cases ended
  · next d found =>
    obtain rfl : c = d := Option.some.inj (next.symm.trans found)
    rfl

/-- A comment cannot be closed inside of a character. -/
theorem closeComment_pass (next : k.ahead = bytes ++ more)
    (plain : ∀ b ∈ bytes, Char.ofUInt8 b ≠ '*') : k.closeComment = (k.moved bytes).closeComment := by
  induction bytes generalizing k with
  | nil => rfl
  | cons b bytes ih =>
    obtain ⟨other, others⟩ := List.forall_mem_cons.mp plain
    have behind : (k.moved [b]).ahead = bytes ++ more := ahead_moved next
    have first : k.peek 0 = some (Char.ofUInt8 b) := by
      rw [peek_eq, next]
      rfl
    rw [closeComment_eq first, if_neg fun close => other close.1, advance_eq next, ih behind others, moved_moved]
    rfl

theorem skipGap_end (ended : k.peek 0 = none) : k.skipGap = (none, k) := by
  rw [skipGap]
  split
  · rfl
  · next next =>
    rw [ended] at next
    cases next

theorem skipGap_eq {c : Char} (next : k.peek 0 = some c) :
    k.skipGap =
      if Gap.isBlank c then k.advance.skipGap
      else if c = '/' ∧ k.peek 1 = some '/' then (k.skipWhile (· != '\n')).skipGap
      else if c = '/' ∧ k.peek 1 = some '*' then
        if k.advance.advance.closeComment.1 then k.advance.advance.closeComment.2.skipGap
        else (some (k.known .illegal "/*"), k.advance.advance.closeComment.2)
      else (none, k) := by
  rw [skipGap]
  split
  · next ended =>
    rw [next] at ended
    cases ended
  · next d found =>
    obtain rfl : c = d := Option.some.inj (next.symm.trans found)
    by_cases stroke : c = '/'
    · simp only [stroke, dite_true, true_and]
    · simp only [stroke, dite_false, false_and, if_false]

/-- The cursor is between two characters, and the place it counts is that of the second. -/
structure Stands (k : Cursor) (before rest : List Char) : Prop where
  source : k.source = encode (before ++ rest)
  position : k.position = (encode before).length
  location : k.location = Location.start.after before

theorem stands_ofText (text : String) : Stands (ofText text) [] text.toList where
  source := Bytes.ofText_eq_encode text
  position := rfl
  location := rfl

namespace Stands

variable {before rest : List Char} {c : Char}

theorem ahead (stands : Stands k before rest) : k.ahead = encode rest := by
  rw [Cursor.ahead, stands.source, stands.position, Bytes.encode_append, List.drop_left]

theorem ahead_cons (stands : Stands k before (c :: rest)) : k.ahead = encode [c] ++ encode rest := by
  rw [stands.ahead, ← Bytes.encode_append]
  rfl

theorem moved {text : List Char} (stands : Stands k before (text ++ rest)) :
    Stands (k.moved (encode text)) (before ++ text) rest where
  source := by rw [List.append_assoc]; exact stands.source
  position := by
    rw [Bytes.encode_append, List.length_append, ← stands.position]
    rfl
  location := by
    rw [Location.after_append, ← stands.location, ← Location.foldl_pass_encode]
    rfl

theorem step (stands : Stands k before (c :: rest)) : Stands (k.moved (encode [c])) (before ++ [c]) rest :=
  stands.moved

theorem skipWhile {p : Char → Bool} (coarse : Bytes.Coarse p) (stands : Stands k before rest) :
    k.skipWhile p = k.moved (encode (rest.takeWhile p)) := by
  rw [skipWhile_eq, stands.ahead, Bytes.takeWhile_encode coarse]

/-- At the end of the text there is no byte, and elsewhere one of the next character. -/
theorem peek_nil (stands : Stands k before []) : k.peek 0 = none := by
  rw [peek_eq, stands.ahead]
  rfl

theorem peek_cons (stands : Stands k before (c :: rest)) :
    ∃ b ∈ String.utf8EncodeChar c, k.peek 0 = some (Char.ofUInt8 b) := by
  obtain ⟨b, bs, shown, _⟩ := Bytes.encodeChar_eq_cons c
  refine ⟨b, by simp [shown], ?_⟩
  rw [peek_eq, stands.ahead, Bytes.encode_cons, shown]
  rfl

theorem peek_eq_some_iff (ascii : c.toNat < 128) (stands : Stands k before rest) :
    k.peek 0 = some c ↔ ∃ more, rest = c :: more := by
  cases rest with
  | nil => simp [stands.peek_nil]
  | cons d more =>
    obtain ⟨b, part, next⟩ := stands.peek_cons
    simp [next, Bytes.ofUInt8_eq_iff ascii part]

theorem peek_ascii (ascii : c.toNat < 128) (stands : Stands k before (c :: rest)) : k.peek 0 = some c :=
  (stands.peek_eq_some_iff ascii).mpr ⟨rest, rfl⟩

/-- Behind a character of ASCII the cursor is after one step. -/
theorem advance (ascii : c.toNat < 128) (stands : Stands k before (c :: rest)) :
    k.advance = k.moved (encode [c]) := by
  have next := stands.ahead_cons
  rw [Bytes.encode_ascii ascii] at next ⊢
  exact advance_eq next

/-- What is one byte ahead of a character of ASCII is the character behind it. -/
theorem peek_one_iff {d : Char} (ascii : c.toNat < 128) (ascii' : d.toNat < 128)
    (stands : Stands k before (c :: rest)) : k.peek 1 = some d ↔ ∃ more, rest = d :: more := by
  have behind : k.peek 1 = (k.moved (encode [c])).peek 0 := by
    rw [peek_eq, peek_eq, stands.step.ahead, stands.ahead_cons, Bytes.encode_ascii ascii]
    rfl
  rw [behind, stands.step.peek_eq_some_iff ascii']

theorem closeComment_cons (stands : Stands k before (c :: rest))
    (other : ∀ more, c = '*' → rest = '/' :: more → False) :
    k.closeComment = (k.moved (encode [c])).closeComment := by
  by_cases star : c = '*'
  · subst star
    have unclosed : ¬ ('*' = '*' ∧ k.peek 1 = some '/') := by
      rintro ⟨_, stroke⟩
      obtain ⟨more, shown⟩ := (stands.peek_one_iff (by decide) (by decide)).mp stroke
      exact other more rfl shown
    rw [closeComment_eq (stands.peek_ascii (by decide)), if_neg unclosed, stands.advance (by decide)]
  · refine closeComment_pass stands.ahead_cons fun b part => ?_
    rw [Bytes.encode_cons, Bytes.encode_nil, List.append_nil] at part
    rw [ne_eq, Bytes.ofUInt8_eq_iff (by decide) part]
    exact star

/-- A comment ends behind its first closing bracket, and without one it takes the whole rest. -/
theorem closeComment (stands : Stands k before rest) :
    (∀ body more, Gap.cutAtClose? rest = some (body, more) →
        k.closeComment = (true, k.moved (encode body))) ∧
      (Gap.cutAtClose? rest = none → k.closeComment = (false, k.moved (encode rest))) := by
  -- The induction is on characters, though the cursor goes by bytes: between two characters it
  -- stands somewhere inside of one, and nothing is claimed there.
  fun_induction Gap.cutAtClose? rest generalizing k before with
  | case1 =>
    refine ⟨fun body more cut => ?_, fun _ => closeComment_end stands.peek_nil⟩
    cases cut
  | case2 rest =>
    refine ⟨fun body more cut => ?_, fun missing => ?_⟩
    · cases cut
      have stroke : k.peek 1 = some '/' := (stands.peek_one_iff (by decide) (by decide)).mpr ⟨rest, rfl⟩
      rw [closeComment_eq (stands.peek_ascii (by decide)), if_pos ⟨rfl, stroke⟩, stands.advance (by decide),
        stands.step.advance (by decide), moved_encode]
      rfl
    · cases missing
  | case3 c cs other body more found ih =>
    refine ⟨fun whole rest cut => ?_, fun missing => ?_⟩
    · cases cut
      rw [stands.closeComment_cons other, (ih stands.step).1 body more found, moved_encode]
      rfl
    · cases missing
  | case4 c cs other missing ih =>
    refine ⟨fun whole rest cut => ?_, fun _ => ?_⟩
    · cases cut
    · rw [stands.closeComment_cons other, (ih stands.step).2 missing, moved_encode]
      rfl

/-- Behind the bracket that opens a comment. -/
theorem behind_bracket {body : List Char} (stands : Stands k before ('/' :: '*' :: body)) :
    k.advance.advance = k.moved (encode ['/', '*']) ∧
      Stands k.advance.advance (before ++ ['/', '*']) body := by
  have both : k.advance.advance = k.moved (encode ['/', '*']) := by
    rw [stands.advance (by decide), stands.step.advance (by decide), moved_encode]
    rfl
  refine ⟨both, ?_⟩
  rw [both]
  exact stands.moved

theorem skipGap_bracket {body : List Char} (stands : Stands k before ('/' :: '*' :: body)) :
    k.skipGap =
      if k.advance.advance.closeComment.1 then k.advance.advance.closeComment.2.skipGap
      else (some (k.known .illegal "/*"), k.advance.advance.closeComment.2) := by
  have star : k.peek 1 = some '*' := (stands.peek_one_iff (by decide) (by decide)).mpr ⟨body, rfl⟩
  rw [skipGap_eq (stands.peek_ascii (by decide)), if_neg (by decide), star, if_neg (by decide),
    if_pos ⟨rfl, rfl⟩]

/-- A piece of a gap is gone over. -/
theorem skipGap_piece {piece more : List Char} (stands : Stands k before rest)
    (cut : Gap.piece? rest = some (piece, more)) : k.skipGap = (k.moved (encode piece)).skipGap := by
  unfold Gap.piece? at cut
  split at cut
  · cases cut
  · next cs =>
    cases cut
    have stroke : k.peek 1 = some '/' := (stands.peek_one_iff (by decide) (by decide)).mpr ⟨cs, rfl⟩
    rw [skipGap_eq (stands.peek_ascii (by decide)), if_neg (by decide), if_pos ⟨rfl, stroke⟩,
      stands.skipWhile (Bytes.coarse_bne (by decide))]
    rfl
  · next cs =>
    split at cut
    · next body after found =>
      cases cut
      obtain ⟨moved, behind⟩ := stands.behind_bracket
      rw [stands.skipGap_bracket, behind.closeComment.1 body more found, if_pos rfl, moved, moved_encode]
      rfl
    · cases cut
  · next c cs _ _ =>
    split at cut
    · next blank =>
      cases cut
      have ascii : c.toNat < 128 := by
        have := (Rendering.isBlank_iff c).mp blank
        omega
      rw [skipGap_eq (stands.peek_ascii ascii), if_pos blank, stands.advance ascii]
    · cases cut

/-- A comment that is never closed takes the whole rest and is handed out. -/
theorem skipGap_open {body : List Char} (stands : Stands k before ('/' :: '*' :: body))
    (solid : Gap.piece? ('/' :: '*' :: body) = none) :
    k.skipGap = (some (k.known .illegal "/*"), k.moved (encode ('/' :: '*' :: body))) := by
  obtain ⟨moved, behind⟩ := stands.behind_bracket
  rw [stands.skipGap_bracket, behind.closeComment.2 (Gap.cutAtClose?_of_solid solid), if_neg Bool.false_ne_true, moved, moved_encode]
  rfl

/-- Where neither a gap nor such a comment is, nothing is skipped. -/
theorem skipGap_solid (stands : Stands k before rest) (solid : Gap.piece? rest = none)
    (closed : ∀ body, rest ≠ '/' :: '*' :: body) : k.skipGap = (none, k) := by
  cases rest with
  | nil => exact skipGap_end stands.peek_nil
  | cons c cs =>
    obtain ⟨b, part, next⟩ := stands.peek_cons
    have blank := Gap.isBlank_of_solid solid
    have ascii (d : Char) (blank : Gap.isBlank d = true) : d.toNat < 128 := by
      have := (Rendering.isBlank_iff d).mp blank
      omega
    -- Neither of the two signs that open a comment is there, so the second byte decides nothing.
    have other {d : Char} (small : d.toNat < 128) (opened : ∀ more, c :: cs ≠ '/' :: d :: more) :
        ¬ (Char.ofUInt8 b = '/' ∧ k.peek 1 = some d) := by
      rintro ⟨stroke, second⟩
      obtain rfl := (Bytes.ofUInt8_eq_iff (by decide) part).mp stroke
      obtain ⟨more, shown⟩ := (stands.peek_one_iff (by decide) small).mp second
      exact opened more (by rw [shown])
    have line : ∀ more, c :: cs ≠ '/' :: '/' :: more := by
      intro more shown
      rw [shown] at solid
      cases solid
    rw [skipGap_eq next, (Bytes.coarse_of_ascii ascii).of_mem part, if_neg (by simp [blank]),
      if_neg (other (by decide) line), if_neg (other (by decide) closed)]

end Stands

end Bytewise.Cursor

end ImpToC
