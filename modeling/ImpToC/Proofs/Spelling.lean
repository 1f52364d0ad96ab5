import Mathlib.Algebra.Ring.Int.Defs
import Mathlib.Data.List.TakeWhile
import ImpToC.Proofs.Grammar.Forms
import ImpToC.Proofs.Parts

/-!
What a program that was read can spell out. Tokens are spelled as their kind says,
the parser takes every name, integer and string from a token, so all leaves of a
program are words that are no keyword, integers of 64 bits that have no sign, and
strings without a quote.
-/
namespace ImpToC

/-- A run of characters of one class ends where the next character is of another. -/
theorem takeWhile_append_stop {p : Char → Bool} {run rest : List Char} (all : ∀ c ∈ run, p c = true)
    (stops : ∀ c, rest.head? = some c → p c = false) :
    (run ++ rest).takeWhile p = run ∧ (run ++ rest).dropWhile p = rest := by
  rw [List.takeWhile_append_of_pos all, List.dropWhile_append_of_pos all]
  cases rest with
  | nil => simp
  | cons c rest => simp [stops c rfl]

/-- Letters and underscores, at least one. -/
def IsWord (name : String) : Prop :=
  name.toList ≠ [] ∧ ∀ c ∈ name.toList, Lexeme.isWordChar c = true

instance (name : String) : Decidable (IsWord name) :=
  decidable_of_iff (name.toList ≠ [] ∧ name.toList.all Lexeme.isWordChar = true)
    (and_congr_right fun _ => List.all_eq_true)

/-- A word that may be used as a name. -/
def IsName (name : String) : Prop := IsWord name ∧ Keyword.ofWord? name = none

instance (name : String) : Decidable (IsName name) := inferInstanceAs (Decidable (_ ∧ _))

/-- What the text of a token has to be. -/
def Token.Spelled (t : Token) : Prop :=
  match t.kind with
  | .ident => IsName t.literal
  | .string => '"' ∉ t.literal.toList
  | _ => True

/-- What the leaves of a program can be after reading. -/
def Leaf.Readable : Leaf → Prop
  | .name word | .callee word => IsName word
  | .int value => 0 ≤ value ∧ value < 2 ^ 63
  | .str text => '"' ∉ text.toList

theorem Token.Spelled.name {t : Token} (spelled : t.Spelled) (word : t.kind = .ident) :
    IsName t.literal := by
  unfold Token.Spelled at spelled
  rwa [word] at spelled

theorem Token.Spelled.text {t : Token} (spelled : t.Spelled) (string : t.kind = .string) :
    '"' ∉ t.literal.toList := by
  unfold Token.Spelled at spelled
  rwa [string] at spelled

namespace Lexeme

theorem isWordChar_iff (c : Char) : isWordChar c = true ↔
    (97 ≤ c.toNat ∧ c.toNat ≤ 122) ∨ (65 ≤ c.toNat ∧ c.toNat ≤ 90) ∨ c.toNat = 95 := by
  have under : c = '_' ↔ c.toNat = 95 :=
    ⟨fun same => by rw [same]; rfl, fun same => Char.toNat_inj.mp same⟩
  simp only [isWordChar, Bool.or_eq_true, Bool.and_eq_true, decide_eq_true_eq, beq_iff_eq,
    Char.le_def, UInt32.le_iff_toNat_le, under, or_assoc]
  rfl

theorem isDigit_iff (c : Char) : isDigit c = true ↔ 48 ≤ c.toNat ∧ c.toNat ≤ 57 := by
  simp only [isDigit, Bool.and_eq_true, decide_eq_true_eq, Char.le_def, UInt32.le_iff_toNat_le]
  rfl

/-- Digits are no part of a word. -/
theorem isWordChar_of_isDigit {c : Char} (digit : isDigit c = true) : isWordChar c = false := by
  rw [isDigit_iff] at digit
  rw [Bool.eq_false_iff, ne_eq, isWordChar_iff]
  omega

/-- What a lexeme has to be so that its token is spelled well. -/
def Spelled (x : Lexeme) : Prop :=
  (x.kind = .ident → IsName (String.ofList x.literal)) ∧ (x.kind = .string → '"' ∉ x.literal)

theorem spelled_of_kind {x : Lexeme} (word : x.kind ≠ .ident) (text : x.kind ≠ .string) : x.Spelled :=
  ⟨fun same => absurd same word, fun same => absurd same text⟩

theorem ofSymbol_spelled (s : Symbol) : (ofSymbol s).Spelled := spelled_of_kind nofun nofun

theorem illegal_spelled (text : List Char) : (illegal text).Spelled := spelled_of_kind nofun nofun

theorem ofWord_spelled {word : List Char} (some : word ≠ []) (letters : ∀ c ∈ word, isWordChar c = true) :
    (ofWord word).Spelled := by
  unfold ofWord
  split
  · exact spelled_of_kind nofun nofun
  · next free =>
    refine ⟨fun _ => ⟨⟨?_, ?_⟩, free⟩, nofun⟩
    · rwa [whole, String.toList_ofList]
    · rwa [whole, String.toList_ofList]

theorem quoted_spelled (cs : List Char) : (quoted cs).1.Spelled := by
  unfold quoted
  split
  · exact spelled_of_kind nofun nofun
  · refine ⟨nofun, fun _ inside => ?_⟩
    have other := List.mem_takeWhile_imp inside
    simp at other

theorem orEqual_spelled {short : Lexeme} {long : Symbol} (spelled : short.Spelled) (cs : List Char) :
    (orEqual short long cs).1.Spelled := by
  unfold orEqual
  split
  · exact ofSymbol_spelled long
  · exact spelled

theorem read?_spelled {cs rest : List Char} {x : Lexeme} (found : read? cs = some (x, rest)) :
    x.Spelled := by
  have first {y : Lexeme × List Char} (spelled : y.1.Spelled) (same : some y = some (x, rest)) :
      x.Spelled := by
    rwa [Option.some.inj same] at spelled
  cases cs with
  | nil => simp [read?] at found
  | cons c cs =>
    simp only [read?] at found
    split at found
    · exact first (quoted_spelled cs) found
    split at found
    · refine first ?_ found
      unfold dots
      split
      · exact ofSymbol_spelled .ellipsis
      · exact illegal_spelled ['.', '.']
      · exact ofSymbol_spelled .dot
    split at found
    · refine first ?_ found
      unfold slash
      split
      · exact spelled_of_kind (by simp) (by simp)
      · exact ofSymbol_spelled .slash
    split at found
    · exact first (orEqual_spelled (ofSymbol_spelled .assign) cs) found
    split at found
    · exact first (orEqual_spelled (illegal_spelled ['!']) cs) found
    split at found
    · refine first ?_ found
      exact spelled_of_kind (by simp [whole]) (by simp [whole])
    split at found
    · next letter =>
      refine first (ofWord_spelled (List.cons_ne_nil c _) fun d member => ?_) found
      rcases List.mem_cons.mp member with rfl | later
      · exact letter
      · exact List.mem_takeWhile_imp later
    split at found
    · exact first (ofSymbol_spelled _) found
    · exact first (illegal_spelled _) found

end Lexeme

namespace Tokens

/-- One step of reading tokens, with what was shown about lengths left out. -/
theorem scan_eq (l : Location) (cs : List Char) :
    scan l cs =
      match Lexeme.read? (Gap.skip l cs).2 with
      | none => ⟨[], .atEnd (Gap.skip l cs).1⟩
      | some (x, rest) =>
        let tail := scan ((Gap.skip l cs).1.after x.text) rest
        ⟨⟨x.kind, String.ofList x.literal, (Gap.skip l cs).1⟩ :: tail.list, tail.final⟩ := by
  rw [scan]
  split
  next place text gap =>
    have texts : (Gap.skip l cs).2 = text := by rw [gap]
    have places : (Gap.skip l cs).1 = place := by rw [gap]
    rw [texts, places]
    split
    · next ended => rw [ended]
    · next x rest found => simp only [found]

/-- All tokens of a text are spelled as their kind says. -/
theorem scan_spelled (l : Location) (cs : List Char) : ∀ t ∈ (scan l cs).list, t.Spelled := by
  induction l, cs using scan.induct with
  | case1 l cs place text gap ended =>
    rw [scan_eq, gap, ended]
    exact nofun
  | case2 l cs place text gap x rest found shorter ih =>
    rw [scan_eq, gap, found]
    intro t member
    rcases List.mem_cons.mp member with rfl | later
    · obtain ⟨word, text⟩ := Lexeme.read?_spelled found
      unfold Token.Spelled
      split
      · next same => exact word same
      · next same =>
        rw [String.toList_ofList]
        exact text same
      · trivial
    · exact ih t later

end Tokens

namespace Parse

variable {α β : Type} {input : List Token}

/-- Whatever a reading gives satisfies `P`. -/
def Scan.Yields (P : α → Prop) (s : Scan α input) : Prop :=
  ∀ value last rest, s.val.outcome = .parsed value last rest → P value

namespace Scan

variable {P : α → Prop} {R : β → Prop}

theorem done_yields {value : α} {last : Token} {rest : List Token} (holds : P value) :
    (done value last rest).Yields P := by
  intro other last' rest' same
  cases same
  exact holds

theorem fail_yields {error : Diagnostic} : (fail error input : Scan α input).Yields P := nofun

theorem behind_yields {s : Scan α input} {t : Token} (holds : s.Yields P) : (s.behind t).Yields P :=
  holds

theorem map_yields {s : Scan α input} {f : α → β} (holds : s.Yields fun value => R (f value)) :
    (s.map f).Yields R := by
  obtain ⟨⟨recorded, outcome⟩, ending⟩ := s
  cases outcome with
  | failed error resume => exact nofun
  | parsed value last rest =>
    intro other last' rest' same
    cases same
    exact holds value last rest rfl

theorem andThen_yields {s : Scan α input}
    {next : (value : α) → (last : Token) → (rest : List Token) →
      rest.length < input.length → Scan β (last :: rest)}
    (first : s.Yields P)
    (later : ∀ value last rest shorter, P value → last :: rest <:+ input →
      (next value last rest shorter).Yields R) : (s.andThen next).Yields R := by
  obtain ⟨⟨recorded, outcome⟩, ending⟩ := s
  cases outcome with
  | failed error resume => exact nofun
  | parsed value last rest =>
    intro other last' rest' same
    exact later value last rest (rest_length_lt ending) (first value last rest rfl) ending
      other last' rest' same

theorem ite_yields {p : Prop} [Decidable p] {yes no : Scan α input} (taken : p → yes.Yields P)
    (other : ¬ p → no.Yields P) : (if p then yes else no).Yields P := by
  by_cases holds : p
  · rw [if_pos holds]
    exact taken holds
  · rw [if_neg holds]
    exact other holds

theorem orElse_yields {s : Scan α input}
    {next : (value : α) → (last : Token) → (rest : List Token) →
      rest.length < input.length → Scan β (last :: rest)}
    {instead : (resume : List Token) → resume <:+ input → Scan β input} (first : s.Yields P)
    (later : ∀ value last rest shorter, P value → last :: rest <:+ input →
      (next value last rest shorter).Yields R)
    (otherwise : ∀ resume ending, (instead resume ending).Yields R) :
    (s.orElse next instead).Yields R := by
  obtain ⟨⟨recorded, outcome⟩, ending⟩ := s
  cases outcome with
  | failed error resume => exact fun other last rest same => otherwise resume ending other last rest same
  | parsed value last rest =>
    intro other last' rest' same
    exact later value last rest (rest_length_lt ending) (first value last rest rfl) ending
      other last' rest' same

end Scan

theorem expect_yields {final last : Token} {kind : Token.Kind} {rest : List Token}
    (spelled : ∀ t ∈ last :: rest, t.Spelled) :
    (expect final kind last rest).Yields fun t => t.kind = kind ∧ t.Spelled := by
  unfold expect
  split
  · exact Scan.fail_yields
  · next t rest =>
    split
    · next same => exact Scan.behind_yields (Scan.done_yields ⟨same, spelled t (by simp)⟩)
    · exact Scan.fail_yields

theorem optionalSemicolon_yields {P : α → Prop} {value : α} {last : Token} {rest : List Token}
    (holds : P value) : (optionalSemicolon value last rest).Yields P := by
  unfold optionalSemicolon
  split
  · exact Scan.done_yields holds
  · split
    · exact Scan.behind_yields (Scan.done_yields holds)
    · exact Scan.done_yields holds

/-- What holds of each item holds of all of a list. The items are read from ends
of the input. -/
theorem items_yields {P : α → Prop} {final : Token} {bound : Nat}
    {item : (input : List Token) → input.length < bound → Scan α input}
    (input : List Token) (small : input.length < bound)
    (each : ∀ part small, part <:+ input → (item part small).Yields P) :
    (items final bound item input small).Yields fun values => ∀ value ∈ values, P value := by
  rw [items]
  refine Scan.andThen_yields (each input small (List.suffix_refl _))
    fun value last rest shorter holds ending => ?_
  cases rest with
  | nil => exact Scan.fail_yields
  | cons t rest =>
    have later : rest <:+ input :=
      (List.suffix_cons t rest).trans ((List.suffix_cons last _).trans ending)
    have shrinks : rest.length < input.length := Nat.lt_of_succ_lt shorter
    dsimp only
    split
    · refine Scan.behind_yields (Scan.behind_yields (Scan.map_yields ?_))
      refine fun values last' rest' found other member => ?_
      rcases List.mem_cons.mp member with rfl | member
      · exact holds
      · exact items_yields rest (by omega) (fun part small within => each part small (within.trans later))
          values last' rest' found other member
    · split
      · refine Scan.behind_yields (Scan.done_yields fun other member => ?_)
        rw [List.mem_singleton] at member
        rwa [member]
      · exact Scan.fail_yields
termination_by input.length

theorem delimited_yields {P : α → Prop} {final opening : Token} {rest : List Token}
    {item : (input : List Token) → input.length < rest.length + 1 → Scan α input}
    (each : ∀ part small, part <:+ rest → (item part small).Yields P) :
    (delimited final opening rest item).Yields fun values => ∀ value ∈ values, P value := by
  unfold delimited
  split
  · exact Scan.behind_yields (items_yields _ _ each)
  · split
    · exact Scan.behind_yields (Scan.done_yields nofun)
    · exact Scan.behind_yields (items_yields _ _ each)

theorem header_yields {final last : Token} {rest : List Token}
    (spelled : ∀ t ∈ last :: rest, t.Spelled) :
    (header final last rest).Yields fun params => ∀ name ∈ params, IsName name := by
  unfold header
  refine Scan.andThen_yields (expect_yields spelled) fun _ opening rest _ _ ending => ?_
  have inside : ∀ t ∈ opening :: rest, t.Spelled := fun t member => spelled t (ending.subset member)
  refine Scan.andThen_yields (P := fun params => ∀ name ∈ params, IsName name)
    (delimited_yields fun part small within => ?_) fun params last rest _ names _ => ?_
  · unfold parameter
    split
    · exact Scan.fail_yields
    · next t others =>
      split
      · next word =>
        have known := inside t (List.mem_cons_of_mem _ (within.subset (by simp)))
        exact Scan.done_yields (known.name word)
      · exact Scan.fail_yields
  · exact Scan.map_yields fun _ _ _ _ => names

theorem integer?_range {digits : String} {value : Int} (read : integer? digits = some value) :
    0 ≤ value ∧ value < 2 ^ 63 := by
  simp only [integer?] at read
  split at read
  · next small =>
    cases read
    omega
  · cases read

theorem readable_block {body : List Stmt} {l : Location}
    (each : ∀ s ∈ body, ∀ leaf ∈ s.leaves, leaf.Readable) :
    ∀ leaf ∈ (Block.mk body l).leaves, leaf.Readable := by
  intro leaf member
  obtain ⟨s, among, inside⟩ := Stmt.mem_leavesOfAll.mp member
  exact each s among leaf inside

theorem readable_func {params : List String} {body : Block}
    (names : ∀ name ∈ params, IsName name) (inside : ∀ leaf ∈ body.leaves, leaf.Readable) :
    ∀ leaf ∈ params.map Leaf.name ++ body.leaves, leaf.Readable := by
  intro leaf member
  rcases List.mem_append.mp member with among | among
  · obtain ⟨name, known, rfl⟩ := List.mem_map.mp among
    exact names name known
  · exact inside leaf among

theorem readable_call {callee : Expr} {args : List Expr} {l : Location}
    (first : ∀ leaf ∈ callee.leaves, leaf.Readable)
    (each : ∀ e ∈ args, ∀ leaf ∈ e.leaves, leaf.Readable) :
    ∀ leaf ∈ (Expr.call callee args l).leaves, leaf.Readable := by
  intro leaf member
  rw [Expr.leaves, List.mem_append, List.mem_append] at member
  rcases member with (named | inside) | among
  · cases callee with
    | ident name m =>
      simp only [Expr.calleeName?, Option.toList_some, List.map_cons, List.map_nil,
        List.mem_singleton] at named
      subst named
      exact first (.name name) (by simp [Expr.leaves])
    | _ => simp [Expr.calleeName?] at named
  · exact first leaf inside
  · obtain ⟨e, known, inside⟩ := Expr.mem_leavesOfAll.mp among
    exact each e known leaf inside

/-- What a statement needs to know about the expressions in it. -/
def ExpressionsReadable (final : Token) (depth bound : Nat) : Prop :=
  ∀ input, input.length < bound → (∀ t ∈ input, t.Spelled) →
    (expression final depth .lowest input).Yields fun e => ∀ leaf ∈ e.leaves, leaf.Readable

/-- What a statement needs to know about the blocks in it. -/
def BlocksReadable (final : Token) (depth bound : Nat) : Prop :=
  ∀ brace rest, rest.length < bound → (∀ t ∈ rest, t.Spelled) →
    (block final depth brace rest).Yields fun body => ∀ leaf ∈ body.leaves, leaf.Readable

section Statements

variable {final t next : Token} {depth : Nat} {tail rest : List Token}

theorem spelled_tail (spelled : ∀ u ∈ t :: tail, u.Spelled) : ∀ u ∈ tail, u.Spelled :=
  fun u member => spelled u (List.mem_cons_of_mem t member)

/-- What is left behind a token that was read is spelled well too. -/
theorem spelled_behind {last : Token} (spelled : ∀ u ∈ input, u.Spelled) (ending : last :: rest <:+ input) :
    ∀ u ∈ rest, u.Spelled :=
  fun u member => spelled u (ending.subset (List.mem_cons_of_mem last member))

/-- A declaration adds its name to the leaves of its initial value. -/
theorem statement_readable_var (keyword : t.kind = .keyword .var) (spelled : ∀ u ∈ t :: tail, u.Spelled)
    (exprs : ExpressionsReadable final depth (t :: tail).length) :
    (statement final depth (t :: tail)).Yields fun s => ∀ leaf ∈ s.leaves, leaf.Readable := by
  rw [statement.eq_def]
  simp only [keyword]
  refine Scan.andThen_yields (expect_yields spelled) fun name last rest small named ending => ?_
  have word := named.2.name named.1
  cases rest with
  | nil => exact Scan.fail_yields
  | cons next rest =>
    refine Scan.ite_yields (fun _ => ?_) fun _ => Scan.ite_yields (fun _ => ?_) fun _ => Scan.fail_yields
    · exact Scan.behind_yields (Scan.done_yields (List.forall_mem_singleton.mpr word))
    · have given := exprs rest (Nat.lt_of_succ_lt small) (spelled_tail (spelled_behind spelled ending))
      refine Scan.behind_yields (Scan.andThen_yields (Scan.behind_yields given) ?_)
      intro value last rest _ readable _
      exact optionalSemicolon_yields (List.forall_mem_cons.mpr ⟨word, readable⟩)

theorem statement_readable_print (keyword : t.kind = .keyword .print) (spelled : ∀ u ∈ t :: tail, u.Spelled)
    (exprs : ExpressionsReadable final depth (t :: tail).length) :
    (statement final depth (t :: tail)).Yields fun s => ∀ leaf ∈ s.leaves, leaf.Readable := by
  rw [statement.eq_def]
  simp only [keyword]
  refine Scan.andThen_yields (expect_yields spelled) fun _ opening rest small _ ending => ?_
  have shown := exprs rest small (spelled_behind spelled ending)
  refine Scan.andThen_yields (Scan.behind_yields shown) fun value last rest _ readable later => ?_
  refine Scan.andThen_yields (expect_yields ?_) fun _ _ _ _ _ _ => optionalSemicolon_yields readable
  exact fun u member => spelled u (ending.subset (later.subset member))

/-- A branch has the leaves of its condition and of its one or two blocks. -/
theorem statement_readable_cond (keyword : t.kind = .keyword .cond) (spelled : ∀ u ∈ t :: tail, u.Spelled)
    (exprs : ExpressionsReadable final depth (t :: tail).length)
    (blocks : BlocksReadable final depth (t :: tail).length) :
    (statement final depth (t :: tail)).Yields fun s => ∀ leaf ∈ s.leaves, leaf.Readable := by
  rw [statement.eq_def]
  simp only [keyword]
  have test := exprs tail (Nat.lt_succ_self _) (spelled_tail spelled)
  refine Scan.andThen_yields (Scan.behind_yields test) fun condition last rest small₁ tested behind => ?_
  have spelled₁ : ∀ u ∈ last :: rest, u.Spelled := fun u member => spelled u (behind.subset member)
  refine Scan.andThen_yields (expect_yields spelled₁) fun _ brace rest small₂ _ opened => ?_
  have first := blocks brace rest (by simp at small₁ small₂ ⊢; omega) (spelled_behind spelled₁ opened)
  refine Scan.andThen_yields first fun consequence last rest small₃ taken closed => ?_
  have both := List.forall_mem_append.mpr ⟨tested, taken⟩
  have plain : ∀ leaf ∈ (Stmt.branch condition consequence none t.location).leaves, leaf.Readable :=
    List.forall_mem_append.mpr ⟨both, List.forall_mem_nil _⟩
  cases rest with
  | nil => exact Scan.done_yields plain
  | cons next rest =>
    have spelled₂ : ∀ u ∈ next :: rest, u.Spelled := spelled_behind spelled₁ (closed.trans opened)
    refine Scan.ite_yields (fun _ => ?_) fun _ => Scan.done_yields plain
    refine Scan.behind_yields (Scan.andThen_yields (expect_yields spelled₂) ?_)
    intro _ brace rest small₄ _ ending
    refine Scan.map_yields fun alternative last' rest' found => ?_
    have second := blocks brace rest (by simp at small₁ small₂ small₃ small₄ ⊢; omega)
      (spelled_behind spelled₂ ending)
    exact List.forall_mem_append.mpr ⟨both, second alternative last' rest' found⟩

theorem statement_readable_foreign (keyword : t.kind = .keyword .foreign)
    (spelled : ∀ u ∈ t :: tail, u.Spelled) :
    (statement final depth (t :: tail)).Yields fun s => ∀ leaf ∈ s.leaves, leaf.Readable := by
  rw [statement.eq_def]
  simp only [keyword]
  refine Scan.andThen_yields (expect_yields spelled) fun name last rest _ named _ => ?_
  have word := named.2.name named.1
  cases rest with
  | nil => exact Scan.fail_yields
  | cons next rest =>
    refine Scan.ite_yields (fun _ => ?_) fun _ => Scan.fail_yields
    exact Scan.behind_yields (Scan.done_yields (List.forall_mem_singleton.mpr word))

/-- A return has leaves only if it has a value. -/
theorem statement_readable_ret (keyword : t.kind = .keyword .ret) (spelled : ∀ u ∈ t :: tail, u.Spelled)
    (exprs : ExpressionsReadable final depth (t :: tail).length) :
    (statement final depth (t :: tail)).Yields fun s => ∀ leaf ∈ s.leaves, leaf.Readable := by
  rw [statement.eq_def]
  simp only [keyword]
  cases tail with
  | nil => exact Scan.done_yields (List.forall_mem_nil _)
  | cons next rest =>
    refine Scan.ite_yields (fun _ => ?_) fun _ => Scan.ite_yields (fun _ => ?_) fun _ => ?_
    · exact Scan.behind_yields (Scan.done_yields (List.forall_mem_nil _))
    · exact Scan.done_yields (List.forall_mem_nil _)
    · have given := exprs (next :: rest) (Nat.lt_succ_self _) (spelled_tail spelled)
      refine Scan.andThen_yields (Scan.behind_yields given) fun value last rest _ readable _ => ?_
      exact optionalSemicolon_yields readable

/-- A function has its name, its parameters and the leaves of its body. -/
theorem statement_readable_func (keyword : t.kind = .keyword .func) (named : next.kind = .ident)
    (spelled : ∀ u ∈ t :: next :: rest, u.Spelled)
    (blocks : BlocksReadable final depth (t :: next :: rest).length) :
    (statement final depth (t :: next :: rest)).Yields fun s => ∀ leaf ∈ s.leaves, leaf.Readable := by
  rw [statement.eq_def]
  simp only [keyword, named, and_self, ↓reduceIte]
  have others := spelled_tail spelled
  have word := (others next (by simp)).name named
  refine Scan.behind_yields (Scan.andThen_yields (header_yields others) ?_)
  intro params brace inner small names ending
  refine Scan.map_yields fun body last' rest' found => ?_
  have inside := blocks brace inner (Nat.lt_succ_of_lt small) (spelled_behind others ending) body last' rest' found
  exact List.forall_mem_cons.mpr ⟨word, readable_func names inside⟩

/-- An assignment adds its name to the leaves of its value. -/
theorem statement_readable_assign (named : t.kind = .ident) (assigns : next.kind = .symbol .assign)
    (spelled : ∀ u ∈ t :: next :: rest, u.Spelled)
    (exprs : ExpressionsReadable final depth (t :: next :: rest).length) :
    (statement final depth (t :: next :: rest)).Yields fun s => ∀ leaf ∈ s.leaves, leaf.Readable := by
  rw [statement.eq_def]
  simp only [assigns, named, reduceCtorEq, and_self, ↓reduceIte]
  have word := (spelled t (by simp)).name named
  have given := exprs rest (Nat.lt_succ_of_lt (Nat.lt_succ_self _)) (spelled_tail (spelled_tail spelled))
  refine Scan.behind_yields (Scan.andThen_yields (Scan.behind_yields given) ?_)
  intro value last rest _ readable _
  exact optionalSemicolon_yields (List.forall_mem_cons.mpr ⟨word, readable⟩)

end Statements

mutual

theorem expression_readable (final : Token) (depth : Nat) (level : Level) (input : List Token)
    (spelled : ∀ t ∈ input, t.Spelled) :
    (expression final depth level input).Yields fun e => ∀ leaf ∈ e.leaves, leaf.Readable := by
  rw [expression]
  refine Scan.andThen_yields (operand_readable final depth input spelled)
    fun left last rest shorter readable ending => ?_
  exact climb_readable final depth level left last rest readable (spelled_behind spelled ending)
termination_by 8 * input.length + 2
decreasing_by all_goals omega

theorem operand_readable (final : Token) (depth : Nat) (input : List Token)
    (spelled : ∀ t ∈ input, t.Spelled) :
    (operand final depth input).Yields fun e => ∀ leaf ∈ e.leaves, leaf.Readable := by
  rw [operand.eq_def]
  cases input with
  | nil => exact Scan.fail_yields
  | cons t rest =>
    have first := spelled t (by simp)
    have others := spelled_tail spelled
    dsimp only
    split
    · next kind =>
      exact Scan.done_yields (List.forall_mem_singleton.mpr (first.name kind))
    · split
      · next read =>
        exact Scan.done_yields (List.forall_mem_singleton.mpr (integer?_range read))
      · exact Scan.fail_yields
    · next kind =>
      exact Scan.done_yields (List.forall_mem_singleton.mpr (first.text kind))
    · refine Scan.andThen_yields
        (Scan.behind_yields (expression_readable final depth .lowest rest others))
        fun inner last rest _ readable _ => ?_
      exact Scan.map_yields fun _ _ _ _ => readable
    · refine Scan.andThen_yields (header_yields spelled) fun params brace inner shorter names ending => ?_
      refine Scan.map_yields fun body last' rest' found => ?_
      change ∀ leaf ∈ (Expr.func params body t.location).leaves, leaf.Readable
      rw [Expr.leaves]
      exact readable_func names (block_readable final depth brace inner (spelled_behind spelled ending)
        body last' rest' found)
    · exact Scan.fail_yields
    · exact Scan.fail_yields
termination_by 8 * input.length + 1
decreasing_by
  all_goals subst_vars
  all_goals simp only [List.length_cons] at *
  all_goals omega

theorem climb_readable (final : Token) (depth : Nat) (level : Level) (left : Expr) (last : Token)
    (rest : List Token) (readable : ∀ leaf ∈ left.leaves, leaf.Readable)
    (spelled : ∀ t ∈ rest, t.Spelled) :
    (climb final depth level left last rest).Yields fun e => ∀ leaf ∈ e.leaves, leaf.Readable := by
  rw [climb.eq_def]
  cases rest with
  | nil => exact Scan.done_yields readable
  | cons t rest =>
    have others := spelled_tail spelled
    dsimp only
    split
    · split
      · next op _ =>
        refine Scan.behind_yields (Scan.andThen_yields
          (Scan.behind_yields (expression_readable final depth op.level rest others))
          fun right last inner shorter rightReadable ending => ?_)
        exact climb_readable final depth level _ last inner
          (List.forall_mem_append.mpr ⟨readable, rightReadable⟩) (spelled_behind spelled ending)
      · refine Scan.behind_yields (Scan.andThen_yields
          (P := fun args => ∀ e ∈ args, ∀ leaf ∈ e.leaves, leaf.Readable)
          (delimited_yields fun part small within => expression_readable final depth .lowest part
            fun u member => others u (within.subset member))
          fun args last inner shorter each ending => ?_)
        exact climb_readable final depth level _ last inner (readable_call readable each)
          (spelled_behind spelled ending)
    · exact Scan.done_yields readable
termination_by 8 * rest.length
decreasing_by
  all_goals subst_vars
  all_goals simp only [List.length_cons] at *
  all_goals omega

theorem block_readable (final : Token) (depth : Nat) (brace : Token) (rest : List Token)
    (spelled : ∀ t ∈ rest, t.Spelled) :
    (block final depth brace rest).Yields fun body => ∀ leaf ∈ body.leaves, leaf.Readable := by
  rw [block]
  refine Scan.map_yields fun body last' rest' found => ?_
  exact readable_block (statements_readable final (depth + 1) brace.location rest spelled
    body last' rest' found)
termination_by 8 * rest.length + 6
decreasing_by all_goals omega

theorem statements_readable (final : Token) (depth : Nat) (opened : Location) (input : List Token)
    (spelled : ∀ t ∈ input, t.Spelled) :
    (statements final depth opened input).Yields fun body =>
      ∀ s ∈ body, ∀ leaf ∈ s.leaves, leaf.Readable := by
  rw [statements.eq_def]
  cases input with
  | nil => exact Scan.fail_yields
  | cons t rest =>
    dsimp only
    split
    · exact Scan.done_yields nofun
    · next closing =>
      refine Scan.orElse_yields (statement_readable final depth (t :: rest) spelled)
        (fun s last inner shorter readable ending => ?_) fun resume ending => ?_
      · refine Scan.behind_yields (Scan.map_yields fun body last' rest' found s' member => ?_)
        rcases List.mem_cons.mp member with rfl | later
        · exact readable
        · exact statements_readable final depth opened inner (spelled_behind spelled ending)
            body last' rest' found s' later
      · have shorter := recover_of_suffix_length_lt depth t rest resume ending fun h => closing h.1
        exact statements_readable final depth opened (recover depth resume)
          fun u member => spelled u (ending.subset ((recover_suffix depth resume).subset member))
termination_by 8 * input.length + 5
decreasing_by
  all_goals subst_vars
  all_goals simp only [List.length_cons] at *
  all_goals omega

theorem statement_readable (final : Token) (depth : Nat) (input : List Token)
    (spelled : ∀ t ∈ input, t.Spelled) :
    (statement final depth input).Yields fun s => ∀ leaf ∈ s.leaves, leaf.Readable := by
  cases input with
  | nil =>
    rw [statement.eq_def]
    exact Scan.fail_yields
  | cons t tail =>
    have exprs : ExpressionsReadable final depth (t :: tail).length := fun part small =>
      expression_readable final depth .lowest part
    have blocks : BlocksReadable final depth (t :: tail).length := fun brace part small =>
      block_readable final depth brace part
    cases begins t tail with
    | var keyword => exact statement_readable_var keyword spelled exprs
    | print keyword => exact statement_readable_print keyword spelled exprs
    | cond keyword => exact statement_readable_cond keyword spelled exprs blocks
    | foreign keyword => exact statement_readable_foreign keyword spelled
    | ret keyword => exact statement_readable_ret keyword spelled exprs
    | block opens =>
      rw [statement.eq_def]
      simp only [opens]
      exact Scan.map_yields (blocks t tail (Nat.lt_succ_self _) (spelled_tail spelled))
    | func keyword named => exact statement_readable_func keyword named spelled blocks
    | assign named assigns => exact statement_readable_assign named assigns spelled exprs
    | bare other =>
      rw [statement_bare other]
      exact bareExpression_readable final depth t tail spelled
termination_by 8 * input.length + 4
decreasing_by
  all_goals subst_vars
  all_goals simp only [List.length_cons] at *
  all_goals omega

theorem bareExpression_readable (final : Token) (depth : Nat) (t : Token) (rest : List Token)
    (spelled : ∀ u ∈ t :: rest, u.Spelled) :
    (bareExpression final depth t rest).Yields fun s => ∀ leaf ∈ s.leaves, leaf.Readable := by
  rw [bareExpression]
  refine Scan.andThen_yields (expression_readable final depth .lowest (t :: rest) spelled)
    fun value last inner shorter readable ending => ?_
  exact optionalSemicolon_yields readable
termination_by 8 * (rest.length + 1) + 3
decreasing_by
  simp only [List.length_cons]
  omega

end

/-- What is read from tokens that are spelled well holds readable leaves only. -/
theorem program_readable (final : Token) (input : List Token) (spelled : ∀ t ∈ input, t.Spelled) :
    ∀ s ∈ (program final input).1, ∀ leaf ∈ s.leaves, leaf.Readable := by
  rw [program.eq_def]
  cases input with
  | nil => exact nofun
  | cons t rest =>
    have each := statement_readable final 0 (t :: rest) spelled
    dsimp only
    split
    · next recorded s last inner ending found =>
      have shorter := Scan.rest_length_lt ending
      intro s' member
      rcases List.mem_cons.mp member with rfl | later
      · exact each s' last inner (by rw [found])
      · exact program_readable final inner (spelled_behind spelled ending) s' later
    · next recorded error resume ending found =>
      have shorter := recover_of_suffix_length_lt 0 t rest resume ending (by simp)
      exact program_readable final (recover 0 resume)
        fun u inside => spelled u (ending.subset ((recover_suffix 0 resume).subset inside))
termination_by input.length

end Parse

/-- All that a program that was read spells out is readable, also where not all of the text
could be read. -/
theorem Program.read_readable (source : String) :
    ∀ leaf ∈ (Program.read source).1.leaves, leaf.Readable := by
  intro leaf member
  obtain ⟨s, among, inside⟩ := Stmt.mem_leavesOfAll.mp member
  exact Parse.program_readable _ _ (Tokens.scan_spelled _ _) s among leaf inside

theorem Program.parse_readable {source : String} {p : Program} (parsed : Program.parse source = .ok p) :
    ∀ leaf ∈ p.leaves, leaf.Readable := by
  have whole : (Program.read source).1 = p := congrArg Prod.fst (Program.read_of_parse parsed)
  subst whole
  exact Program.read_readable source

end ImpToC
