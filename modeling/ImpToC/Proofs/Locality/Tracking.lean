import ImpToC.Proofs.Locality.Relocation

/-!
How a reading changes if its tokens are put into another text: at other places, with more
tokens behind them, and in front of another end. Nothing but places changes as long as
reading does not look past the tokens it was given. It does not, if nothing follows and
the end has moved along with the rest; and it does not in front of a semicolon, which ends
statements and recovery alike. The one exception is a block whose closing brace is
missing, so what is said about failures allows for lists with an opening brace.
-/
namespace ImpToC.Parse

/-- The last token is a semicolon. -/
def Ended (ts : List Token) : Prop := ∃ t, [t] <:+ ts ∧ t.kind = .symbol .semicolon

theorem not_ended_nil : ¬ Ended [] := by
  rintro ⟨u, ending, _⟩
  exact absurd (List.suffix_nil.mp ending) (List.cons_ne_nil u [])

theorem ended_cons {t : Token} {ts : List Token} :
    Ended (t :: ts) ↔ ts = [] ∧ t.kind = .symbol .semicolon ∨ Ended ts := by
  constructor
  · rintro ⟨u, ending, semicolon⟩
    rcases List.suffix_cons_iff.mp ending with whole | later
    · obtain ⟨rfl, rfl⟩ := List.cons.inj whole
      exact .inl ⟨rfl, semicolon⟩
    · exact .inr ⟨u, later, semicolon⟩
  · rintro (⟨rfl, semicolon⟩ | ⟨u, ending, semicolon⟩)
    · exact ⟨t, List.suffix_refl _, semicolon⟩
    · exact ⟨u, ending.trans (List.suffix_cons t ts), semicolon⟩

instance decidableEnded : (ts : List Token) → Decidable (Ended ts)
  | [] => isFalse not_ended_nil
  | t :: ts =>
    have := decidableEnded ts
    decidable_of_iff _ (ended_cons (t := t)).symm

theorem Ended.suffix {ts us : List Token} (ended : Ended ts) (ending : us <:+ ts) : Ended us ∨ us = [] := by
  obtain ⟨u, last, semicolon⟩ := ended
  cases us with
  | nil => exact .inr rfl
  | cons v us =>
    have within : [u] <:+ v :: us := List.suffix_of_suffix_length_le last ending (by simp)
    exact .inl ⟨u, within, semicolon⟩

/-- Tokens put into another text. `more` follows them there, and what ends the text is
`final'` in place of `final`. `braced` holds if there is an opening brace among them. -/
structure Transfer where
  place : Location → Location
  more : List Token
  final : Token
  final' : Token
  braced : Prop

namespace Transfer

variable {α β : Type} (m : Transfer)

/-- The end of the old text, as it is found in the new one. -/
def carry (ts : List Token) : List Token := ts.map (Token.relocate m.place) ++ m.more

@[simp] theorem carry_cons (t : Token) (ts : List Token) :
    m.carry (t :: ts) = t.relocate m.place :: m.carry ts := rfl

/-- What follows is not met before these tokens are used up. -/
def Bounded (ts : List Token) : Prop :=
  m.more = [] ∧ m.final' = m.final.relocate m.place ∨ Ended ts

structure Safe (ts : List Token) : Prop where
  bounded : m.Bounded ts
  free : ∀ t ∈ ts, t.kind = .symbol .leftBrace → m.braced

/-- A safe list, or nothing at all behind a last semicolon. -/
def Used (ts : List Token) : Prop := m.Safe ts ∨ ts = []

variable {m} {t : Token} {ts : List Token}

theorem Bounded.cons (bounded : m.Bounded ts) : m.Bounded (t :: ts) :=
  bounded.imp_right fun ended => ended_cons.mpr (.inr ended)

theorem Bounded.suffix {us : List Token} (bounded : m.Bounded ts) (ending : us <:+ ts) :
    m.Bounded us ∨ us = [] := by
  rcases bounded with same | ended
  · exact .inl (.inl same)
  · exact (ended.suffix ending).imp_left .inr

theorem Safe.used (safe : m.Safe (t :: ts)) : m.Used ts := by
  have free : ∀ u ∈ ts, u.kind = .symbol .leftBrace → m.braced := fun u member =>
    safe.free u (List.mem_cons_of_mem t member)
  exact (safe.bounded.suffix (List.suffix_cons t ts)).imp_left fun bounded => ⟨bounded, free⟩

theorem Safe.tail (safe : m.Safe (t :: ts)) (inner : t.kind ≠ .symbol .semicolon) : m.Safe ts := by
  rcases safe.used with later | rfl
  · exact later
  · rcases safe.bounded with same | ended
    · exact ⟨.inl same, by simp⟩
    · rcases ended_cons.mp ended with ⟨_, semicolon⟩ | later
      · exact absurd semicolon inner
      · exact absurd later not_ended_nil

theorem Safe.braced (safe : m.Safe (t :: ts)) (opens : t.kind = .symbol .leftBrace) : m.braced :=
  safe.free t List.mem_cons_self opens

/-- Tokens are used up early only if nothing follows and the end has moved along. -/
theorem Bounded.nil (bounded : m.Bounded []) :
    ∃ place final braced, m = ⟨place, [], final, final.relocate place, braced⟩ := by
  obtain ⟨place, more, final, final', braced⟩ := m
  rcases bounded with ⟨none, same⟩ | ended
  · dsimp only at none same
    rw [none, same]
    exact ⟨place, final, braced, rfl⟩
  · exact absurd ended not_ended_nil

theorem opensStatement_carry (bounded : m.Bounded ts) : opensStatement (m.carry ts) = opensStatement ts := by
  cases ts with
  | nil =>
    obtain ⟨place, final, braced, rfl⟩ := bounded.nil
    rfl
  | cons t ts => rfl

/-- Recovery finds the same place. -/
theorem recover_carry (depth : Nat) (safe : m.Safe ts) :
    recover depth (m.carry ts) = m.carry (recover depth ts) := by
  induction ts with
  | nil =>
    obtain ⟨place, final, braced, rfl⟩ := safe.bounded.nil
    rfl
  | cons t ts ih =>
    rw [carry_cons, recover, recover, Token.relocate_kind]
    by_cases closes : t.kind = .symbol .rightBrace ∧ 0 < depth
    · rw [if_pos closes, if_pos closes, carry_cons]
    · rw [if_neg closes, if_neg closes]
      by_cases ends : t.kind = .symbol .semicolon
      · rw [if_pos ends, if_pos ends]
      · -- A semicolon is still ahead, so recovery does not come to see what follows it.
        have later := safe.tail ends
        rw [if_neg ends, if_neg ends, opensStatement_carry later.bounded, ih later]
        split <;> rfl

theorem used_recover (depth : Nat) (safe : m.Safe ts) : m.Used (recover depth ts) := by
  induction ts with
  | nil => exact .inl safe
  | cons t ts ih =>
    rw [recover]
    by_cases closes : t.kind = .symbol .rightBrace ∧ 0 < depth
    · rw [if_pos closes]
      exact .inl safe
    · rw [if_neg closes]
      by_cases ends : t.kind = .symbol .semicolon
      · rw [if_pos ends]
        exact safe.used
      · rw [if_neg ends]
        split
        · exact safe.used
        · exact ih (safe.tail ends)

variable (m)

def outcome (g : α → α) : Outcome α → Outcome α
  | .parsed value last rest => .parsed (g value) (last.relocate m.place) (m.carry rest)
  | .failed error resume => .failed (error.relocate m.place) (m.carry resume)

def reading (g : α → α) (r : Reading α) : Reading α :=
  ⟨r.recorded.map (Diagnostic.relocate m.place), m.outcome g r.outcome⟩

/-- The second reading is the first one in the other text. Values are moved by `g`, and
what is left over after a success is as `after` says. A failure may be another one if
there was an opening brace and the tokens were used up. -/
def Tracks (g : α → α) (after : List Token → Prop) {input input' : List Token}
    (s : Scan α input) (s' : Scan α input') : Prop :=
  (s.val.recorded ≠ [] → m.braced) ∧
    match s.val.outcome with
    | .parsed _ _ rest => after rest ∧ s'.val = m.reading g s.val
    | .failed _ resume =>
      (m.Bounded resume → s'.val = m.reading g s.val) ∧ (m.Bounded resume ∨ m.braced)

section Combinators

variable {m} {input input' : List Token} {g : α → α} {k : β → β} {after next : List Token → Prop}

theorem done_tracks {value : α} {last : Token} {rest : List Token} (holds : after rest) :
    m.Tracks g after (.done value last rest) (.done (g value) (last.relocate m.place) (m.carry rest)) :=
  ⟨fun loud => absurd rfl loud, holds, rfl⟩

theorem fail_tracks {error : Diagnostic} (bounded : m.Bounded input) :
    m.Tracks g after (.fail error input) (.fail (error.relocate m.place) (m.carry input)) :=
  ⟨fun loud => absurd rfl loud, fun _ => rfl, .inl bounded⟩

theorem Tracks.behind {s : Scan α input} {s' : Scan α input'} {t t' : Token}
    (tracks : m.Tracks g after s s') : m.Tracks g after (s.behind t) (s'.behind t') := tracks

theorem Tracks.weaken {s : Scan α input} {s' : Scan α input'} (tracks : m.Tracks g after s s')
    (weaker : ∀ rest, after rest → next rest) : m.Tracks g next s s' := by
  obtain ⟨⟨recorded, outcome⟩, ending⟩ := s
  cases outcome with
  | failed error resume => exact tracks
  | parsed value last rest => exact ⟨tracks.1, weaker rest tracks.2.1, tracks.2.2⟩

theorem Tracks.map {s : Scan α input} {s' : Scan α input'} {h h' : α → β}
    (tracks : m.Tracks g after s s') (same : ∀ value, h' (g value) = k (h value)) :
    m.Tracks k after (s.map h) (s'.map h') := by
  obtain ⟨⟨recorded, outcome⟩, ending⟩ := s
  obtain ⟨r', ending'⟩ := s'
  cases outcome with
  | failed error resume =>
    refine ⟨tracks.1, fun bounded => ?_, tracks.2.2⟩
    obtain rfl : r' = _ := tracks.2.1 bounded
    rfl
  | parsed value last rest =>
    refine ⟨tracks.1, tracks.2.1, ?_⟩
    obtain rfl : r' = _ := tracks.2.2
    simp only [Scan.map, reading, Transfer.outcome, same]

/-- Both texts take the same branch. -/
theorem Tracks.ite {p p' : Prop} [Decidable p] [Decidable p'] {s₁ s₂ : Scan α input} {s₁' s₂' : Scan α input'}
    (same : p' ↔ p) (yes : p → m.Tracks g after s₁ s₁') (no : ¬ p → m.Tracks g after s₂ s₂') :
    m.Tracks g after (if p then s₁ else s₂) (if p' then s₁' else s₂') := by
  by_cases holds : p
  · rw [if_pos holds, if_pos (same.mpr holds)]
    exact yes holds
  · rw [if_neg holds, if_neg fun holds' => holds (same.mp holds')]
    exact no holds

/-- Diagnostics that were recorded before are moved like all others. -/
theorem Tracks.noting {s : Scan α input} {s' : Scan α input'} {earlier earlier' : List Diagnostic}
    (tracks : m.Tracks g after s s') (moved : earlier' = earlier.map (Diagnostic.relocate m.place))
    (braced : earlier ≠ [] → m.braced) : m.Tracks g after (s.noting earlier) (s'.noting earlier') := by
  obtain ⟨⟨recorded, outcome⟩, ending⟩ := s
  obtain ⟨r', ending'⟩ := s'
  have noted : earlier ++ recorded ≠ [] → m.braced := by
    intro loud
    by_cases silent : earlier = []
    · rw [silent] at loud
      exact tracks.1 loud
    · exact braced silent
  have joined : r' = m.reading g ⟨recorded, outcome⟩ →
      (⟨earlier' ++ r'.recorded, r'.outcome⟩ : Reading α) = m.reading g ⟨earlier ++ recorded, outcome⟩ := by
    rintro rfl
    simp only [reading, moved, List.map_append]
  cases outcome with
  | failed error resume => exact ⟨noted, fun bounded => joined (tracks.2.1 bounded), tracks.2.2⟩
  | parsed value last rest => exact ⟨noted, tracks.2.1, joined tracks.2.2⟩

theorem Tracks.andThen {s : Scan α input} {s' : Scan α input'}
    {then₁ : (value : α) → (last : Token) → (rest : List Token) →
      rest.length < input.length → Scan β (last :: rest)}
    {then₂ : (value : α) → (last : Token) → (rest : List Token) →
      rest.length < input'.length → Scan β (last :: rest)}
    (first : m.Tracks g after s s')
    (second : ∀ value last rest small small', after rest →
      m.Tracks k next (then₁ value last rest small)
        (then₂ (g value) (last.relocate m.place) (m.carry rest) small')) :
    m.Tracks k next (s.andThen then₁) (s'.andThen then₂) := by
  obtain ⟨⟨recorded, outcome⟩, ending⟩ := s
  obtain ⟨r', ending'⟩ := s'
  cases outcome with
  | failed error resume =>
    refine ⟨first.1, fun bounded => ?_, first.2.2⟩
    obtain rfl : r' = _ := first.2.1 bounded
    rfl
  | parsed value last rest =>
    obtain rfl : r' = _ := first.2.2
    exact (second value last rest _ _ first.2.1).noting rfl first.1

/-- A failure that is recovered from is recorded, at its new place. -/
theorem Tracks.orElse {s : Scan α input} {s' : Scan α input'}
    {then₁ : (value : α) → (last : Token) → (rest : List Token) →
      rest.length < input.length → Scan β (last :: rest)}
    {then₂ : (value : α) → (last : Token) → (rest : List Token) →
      rest.length < input'.length → Scan β (last :: rest)}
    {instead₁ : (resume : List Token) → resume <:+ input → Scan β input}
    {instead₂ : (resume : List Token) → resume <:+ input' → Scan β input'}
    (braced : m.braced) (bounded : m.Bounded input) (first : m.Tracks g after s s')
    (second : ∀ value last rest small small', after rest →
      m.Tracks k next (then₁ value last rest small)
        (then₂ (g value) (last.relocate m.place) (m.carry rest) small'))
    (other : ∀ resume ending ending', m.Bounded resume →
      m.Tracks k next (instead₁ resume ending) (instead₂ (m.carry resume) ending'))
    (lost : ∀ ending, ∃ error, (instead₁ [] ending).val.outcome = .failed error []) :
    m.Tracks k next (s.orElse then₁ instead₁) (s'.orElse then₂ instead₂) := by
  obtain ⟨⟨recorded, outcome⟩, ending⟩ := s
  obtain ⟨r', ending'⟩ := s'
  cases outcome with
  | parsed value last rest =>
    obtain rfl : r' = _ := first.2.2
    exact (second value last rest _ _ first.2.1).noting rfl first.1
  | failed error resume =>
    by_cases more : m.Bounded resume
    · obtain rfl : r' = _ := first.2.1 more
      exact (other resume ending ending' more).noting (by simp) fun _ => braced
    · -- Everything was used up, so the other way fails as well and nothing is claimed of it.
      obtain rfl : resume = [] := (bounded.suffix ending).resolve_left more
      obtain ⟨error', stopped⟩ := lost ending
      refine ⟨fun _ => braced, ?_⟩
      change match (instead₁ [] ending).val.outcome with
        | .parsed _ _ rest => _
        | .failed _ resume => _
      rw [stopped]
      exact ⟨fun bounded' => absurd bounded' more, .inr braced⟩

end Combinators

section Pieces

variable {m} {last : Token} {rest : List Token}

theorem expect_tracks {kind : Token.Kind} (safe : m.Safe rest) (inner : kind ≠ .symbol .semicolon) :
    m.Tracks (Token.relocate m.place) (fun us => m.Safe us ∧ (kind = .symbol .leftBrace → m.braced))
      (expect m.final kind last rest) (expect m.final' kind (last.relocate m.place) (m.carry rest)) := by
  cases rest with
  | nil =>
    obtain ⟨place, final, braced, rfl⟩ := safe.bounded.nil
    exact fail_tracks safe.bounded.cons
  | cons t rest =>
    refine Tracks.ite Iff.rfl (fun same => ?_) fun _ => fail_tracks safe.bounded.cons
    exact (done_tracks ⟨safe.tail (same ▸ inner), fun opens => safe.braced (same.trans opens)⟩).behind

theorem optionalSemicolon_tracks {g : α → α} {value value' : α} (safe : m.Safe rest)
    (moved : value' = g value) :
    m.Tracks g m.Used (optionalSemicolon value last rest)
      (optionalSemicolon value' (last.relocate m.place) (m.carry rest)) := by
  subst moved
  cases rest with
  | nil =>
    obtain ⟨place, final, braced, rfl⟩ := safe.bounded.nil
    exact done_tracks (.inl safe)
  | cons t rest =>
    exact Tracks.ite Iff.rfl (fun _ => (done_tracks safe.used).behind) fun _ => done_tracks (.inl safe)

theorem items_tracks {g : α → α} {bound bound' : Nat}
    {item : (input : List Token) → input.length < bound → Scan α input}
    {item' : (input : List Token) → input.length < bound' → Scan α input}
    (input : List Token) (small : input.length < bound) (small' : (m.carry input).length < bound')
    (safe : m.Safe input)
    (each : ∀ part small small', part.length ≤ input.length → m.Safe part →
      m.Tracks g m.Safe (item part small) (item' (m.carry part) small')) :
    m.Tracks (List.map g) m.Safe (items m.final bound item input small)
      (items m.final' bound' item' (m.carry input) small') := by
  rw [items, items]
  apply (each input small small' (Nat.le_refl _) safe).andThen
  intro value last rest shorter shorter' later
  cases rest with
  | nil =>
    obtain ⟨place, final, braced, rfl⟩ := later.bounded.nil
    exact fail_tracks later.bounded.cons
  | cons t rest =>
    refine Tracks.ite Iff.rfl (fun comma => ?_) fun _ => Tracks.ite Iff.rfl (fun closes => ?_) fun _ => ?_
    · have shrinks : rest.length < input.length := Nat.lt_of_succ_lt shorter
      have others := items_tracks rest (Nat.lt_trans shrinks small)
        (Nat.lt_trans (Nat.lt_of_succ_lt shorter') small') (later.tail (by simp [comma]))
        fun part small small' le => each part small small' (by omega)
      exact Tracks.behind (Tracks.behind (others.map fun _ => rfl))
    · exact (done_tracks (later.tail (by simp [closes]))).behind
    · exact fail_tracks later.bounded.cons
termination_by input.length

theorem delimited_tracks {g : α → α} {opening : Token}
    {item : (input : List Token) → input.length < rest.length + 1 → Scan α input}
    {item' : (input : List Token) → input.length < (m.carry rest).length + 1 → Scan α input}
    (safe : m.Safe rest)
    (each : ∀ part small small', m.Safe part → m.Tracks g m.Safe (item part small) (item' (m.carry part) small')) :
    m.Tracks (List.map g) m.Safe (delimited m.final opening rest item)
      (delimited m.final' (opening.relocate m.place) (m.carry rest) item') := by
  have listed := fun small small' =>
    items_tracks rest small small' safe fun part small small' _ => each part small small'
  cases rest with
  | nil =>
    obtain ⟨place, final, braced, rfl⟩ := safe.bounded.nil
    exact (listed _ _).behind
  | cons t rest =>
    refine Tracks.ite Iff.rfl (fun closes => ?_) fun _ => (listed _ _).behind
    exact (done_tracks (safe.tail (by simp [closes]))).behind

theorem parameter_tracks (input : List Token) (safe : m.Safe input) :
    m.Tracks id m.Safe (parameter m.final input) (parameter m.final' (m.carry input)) := by
  cases input with
  | nil =>
    obtain ⟨place, final, braced, rfl⟩ := safe.bounded.nil
    exact fail_tracks safe.bounded
  | cons t rest =>
    refine Tracks.ite Iff.rfl (fun named => ?_) fun _ => fail_tracks safe.bounded
    exact done_tracks (safe.tail (by simp [named]))

/-- The header of a function ends with an opening brace. -/
theorem header_tracks (safe : m.Safe rest) :
    m.Tracks id (fun us => m.Safe us ∧ m.braced) (header m.final last rest)
      (header m.final' (last.relocate m.place) (m.carry rest)) := by
  unfold header
  refine Tracks.andThen (expect_tracks safe (by decide)) ?_
  intro _ opening rest small small' inside
  refine Tracks.andThen (delimited_tracks inside.1 fun part _ _ => parameter_tracks part) ?_
  intro params last rest small small' later
  rw [List.map_id]
  refine Tracks.map (Tracks.weaken (expect_tracks later (by decide)) ?_) fun _ => rfl
  exact fun us holds => ⟨holds.1, holds.2 rfl⟩

end Pieces

end Transfer

end ImpToC.Parse
