import ImpToC.Proofs.Locality.Readings

/-!
Faults stay where they are. A text cut behind some of its semicolons is read piece by
piece, if each piece is either free of faults or so plain that recovery from any fault in
it ends at its own semicolon. Neither what is kept nor what is complained about depends on
the pieces before or behind.
-/
namespace ImpToC.Parse

/-- Tokens up to the first semicolon, without braces and without a word that opens a
statement, unless it comes first. -/
structure Simple (ts : List Token) : Prop where
  ended : Ended ts
  single : ∀ t ∈ ts.dropLast, t.kind ≠ .symbol .semicolon
  flat : ∀ t ∈ ts, t.kind ≠ .symbol .leftBrace ∧ t.kind ≠ .symbol .rightBrace
  plain : ∀ t ∈ ts.tail, t.kind.startsStatement = false

instance (ts : List Token) : Decidable (Simple ts) :=
  decidable_of_iff
    (Ended ts ∧ (∀ t ∈ ts.dropLast, t.kind ≠ .symbol .semicolon) ∧
      (∀ t ∈ ts, t.kind ≠ .symbol .leftBrace ∧ t.kind ≠ .symbol .rightBrace) ∧
      ∀ t ∈ ts.tail, t.kind.startsStatement = false)
    ⟨fun ⟨ended, single, flat, plain⟩ => ⟨ended, single, flat, plain⟩,
      fun simple => ⟨simple.ended, simple.single, simple.flat, simple.plain⟩⟩

/-- A piece of a text that is read on its own. `final` stands behind it then. -/
def Segment (final : Token) (ts : List Token) : Prop :=
  Ended ts ∧ ((program final ts).2 = [] ∨ Simple ts)

instance (final : Token) (ts : List Token) : Decidable (Segment final ts) := inferInstanceAs (Decidable (_ ∧ _))

/-- What follows a segment is read as if it came first. -/
theorem program_append (alone final : Token) (ts more : List Token) (segment : Segment alone ts) :
    program final (ts ++ more) =
      ((program alone ts).1 ++ (program final more).1, (program alone ts).2 ++ (program final more).2) := by
  obtain ⟨ended, kind⟩ := segment
  let m : Transfer := ⟨id, more, alone, final, ∃ t ∈ ts, t.kind = .symbol .leftBrace⟩
  have used : m.Used ts := .inl ⟨.inr ended, fun t member opens => ⟨t, member, opens⟩⟩
  have calm : (program alone ts).2 = [] ∨ ¬ ∃ t ∈ ts, t.kind = .symbol .leftBrace := by
    refine kind.imp_right fun simple => ?_
    rintro ⟨t, member, opens⟩
    exact (simple.flat t member).1 opens
  have moved : program final (ts.map (Token.relocate id) ++ more) = _ := m.program_carry ts used (.inr calm)
  rwa [List.map_id'' Token.relocate_id, List.map_id'' Stmt.relocate_id, List.map_id'' Diagnostic.relocate_id]
    at moved

theorem Simple.suffix {ts us : List Token} (simple : Simple ts) (ending : us <:+ ts) :
    us = [] ∨ Simple us := by
  rcases simple.ended.suffix ending with ended | none
  · obtain ⟨front, rfl⟩ := ending
    have some : us ≠ [] := fun none => not_ended_nil (none ▸ ended)
    refine .inr ⟨ended, fun t member => ?_, fun t member => ?_, fun t member => ?_⟩
    · apply simple.single
      rw [List.dropLast_append_of_ne_nil some]
      exact List.mem_append_right front member
    · exact simple.flat t (List.mem_append_right front member)
    · apply simple.plain
      cases front with
      | nil => exact member
      | cons u front => exact List.mem_append_right front (List.mem_of_mem_tail member)
  · exact .inl none

/-- Recovery in a simple segment ends behind its semicolon. -/
theorem Simple.recover_eq_nil {ts : List Token} (simple : Simple ts) : recover 0 ts = [] := by
  induction ts with
  | nil => rfl
  | cons t ts ih =>
    rw [recover, if_neg (by simp)]
    by_cases ends : t.kind = .symbol .semicolon
    · rw [if_pos ends]
      cases ts with
      | nil => rfl
      | cons u ts => exact absurd ends (simple.single t List.mem_cons_self)
    · rw [if_neg ends]
      rcases simple.suffix (List.suffix_cons t ts) with rfl | later
      · rfl
      · have closed : opensStatement ts = false := by
          cases ts with
          | nil => rfl
          | cons u ts => exact simple.plain u List.mem_cons_self
        rw [closed]
        exact ih later

/-- Without braces no fault is passed over inside a statement, and one that stops it is
met in front of the semicolon. -/
theorem statement_flat (final : Token) (depth : Nat) {ts : List Token} (ended : Ended ts)
    (flat : ∀ t ∈ ts, t.kind ≠ .symbol .leftBrace) :
    (statement final depth ts).val.recorded = [] ∧
      ∀ error resume, (statement final depth ts).val.outcome = .failed error resume → Ended resume := by
  -- Something has to follow for the tokens to be bounded by their semicolon only.
  let m : Transfer := ⟨id, [final], final, final, False⟩
  have tracks := m.statement_tracks depth ts ⟨.inr ended, flat⟩
  refine ⟨Classical.not_not.mp tracks.1, fun error resume stopped => ?_⟩
  have bounds := tracks.2
  rw [stopped] at bounds
  have bounded : m.Bounded resume := bounds.2.resolve_right id
  exact bounded.resolve_left fun holds => List.cons_ne_nil _ _ holds.1

theorem Simple.diagnostics_length_le (final : Token) {ts : List Token} (simple : Simple ts) :
    (program final ts).2.length ≤ 1 := by
  cases ts with
  | nil => simp
  | cons t tail =>
    have step := statement_flat final 0 simple.ended fun u member => (simple.flat u member).1
    rcases read : (statement final 0 (t :: tail)).val with ⟨recorded, ⟨s, last, rest⟩ | ⟨error, resume⟩⟩
    all_goals
      rw [read] at step
      obtain rfl : recorded = [] := step.1
    · have inside := Scan.suffix_of_parsed read
      have shorter := Scan.rest_length_lt inside
      rw [program_of_parsed read]
      rcases simple.suffix ((List.suffix_cons last rest).trans inside) with rfl | later
      · simp
      · exact later.diagnostics_length_le final
    · have ended := step.2 error resume rfl
      have stopped : Simple resume := by
        apply (simple.suffix (Scan.suffix_of_failed read)).resolve_left
        rintro rfl
        exact not_ended_nil ended
      rw [program_of_failed read, stopped.recover_eq_nil, program_nil]
      exact Nat.le_refl 1
termination_by ts.length

/-- Whatever segments a text is made of, the statements kept and the diagnostics recorded
are those of the segments one by one, and a simple segment adds one diagnostic at most.
`final` ends the text, and each segment that stands alone has an end of its own. -/
theorem program_flatten (final : Token) (ends : List Token → Token) (segments : List (List Token))
    (each : ∀ ts ∈ segments, Segment (ends ts) ts) :
    program final segments.flatten =
        (segments.flatMap fun ts => (program (ends ts) ts).1, segments.flatMap fun ts => (program (ends ts) ts).2) ∧
      ∀ ts ∈ segments, Simple ts → (program (ends ts) ts).2.length ≤ 1 := by
  refine ⟨?_, fun ts _ simple => simple.diagnostics_length_le (ends ts)⟩
  induction segments with
  | nil =>
    rw [List.flatten_nil, program.eq_def]
    rfl
  | cons ts segments ih =>
    obtain ⟨first, others⟩ := List.forall_mem_cons.mp each
    rw [List.flatten_cons, program_append (ends ts) final ts _ first, ih others]
    rfl

/-- Two faults between statements that are kept: an operand that is missing, and a branch
without braces. -/
theorem program_flatten_sample :
    ∃ segments, segments = ["func f() { return 1; } x = f();", ") + 2;", "if x 1;", "print(x);"].map
        (fun text => (Tokens.ofText text).list) ∧
      (program (.atEnd .start) segments.flatten).1.length = 3 ∧
      (program (.atEnd .start) segments.flatten).2.map Diagnostic.message =
        ["no prefix parse rule for ')'", r"expected '{', got integer literal 1"] := by
  refine ⟨_, rfl, ?_⟩
  rw [(program_flatten (.atEnd .start) (fun _ => .atEnd .start) _ (by decide +kernel)).1]
  decide +kernel

end ImpToC.Parse
