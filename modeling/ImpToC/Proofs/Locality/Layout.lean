import Mathlib.Data.List.Forall2
import ImpToC.Proofs.Locality.Generation
import ImpToC.Proofs.Locality.Readings
import ImpToC.Proofs.Spelling

/-!
Layout never changes meaning. Two texts with the same tokens are both the image of one
list of tokens whose places are their numbers, so what is read from one is read from the
other, and diagnostics point at the tokens with the same numbers. No two tokens of a text
share a place, so a diagnostic points at one token only.
-/
namespace ImpToC

theorem Gap.skip_location (l : Location) (cs : List Char) :
    (Gap.skip l cs).1 = l ∨ l.Before (Gap.skip l cs).1 := by
  obtain ⟨gap, _, moved⟩ := Gap.skip_eq_append l cs
  rw [moved]
  exact l.after_eq_or_before gap

namespace Tokens

/-- No token of a text stands in front of where the text begins. -/
theorem scan_location (l : Location) (cs : List Char) :
    ∀ t ∈ (scan l cs).toList, t.location = l ∨ l.Before t.location := by
  induction l, cs using scan.induct with
  | case1 l cs place text gap ended =>
    have start := Gap.skip_location l cs
    rw [gap] at start
    rw [scan_eq, gap, ended]
    intro t member
    obtain rfl : t = .atEnd place := List.mem_singleton.mp member
    exact start
  | case2 l cs place text gap x rest found shorter ih =>
    have start := Gap.skip_location l cs
    rw [gap] at start
    rw [scan_eq, gap, found]
    have solid : place.Before (place.after x.text) := Location.before_after (Lexeme.read?_text_ne_nil _ _ _ found)
    intro t member
    rcases List.mem_cons.mp member with rfl | later
    · exact start
    · have beyond : place.Before t.location := by
        rcases ih t later with same | after
        · exact same ▸ solid
        · exact solid.trans after
      rcases start with same | before
      · exact .inr (same ▸ beyond)
      · exact .inr (before.trans beyond)

theorem scan_pairwise (l : Location) (cs : List Char) :
    (scan l cs).toList.Pairwise fun t u => t.location.Before u.location := by
  induction l, cs using scan.induct with
  | case1 l cs place text gap ended =>
    rw [scan_eq, gap, ended]
    exact List.pairwise_singleton _ _
  | case2 l cs place text gap x rest found shorter ih =>
    rw [scan_eq, gap, found]
    have solid : place.Before (place.after x.text) := Location.before_after (Lexeme.read?_text_ne_nil _ _ _ found)
    refine List.pairwise_cons.mpr ⟨fun t later => ?_, ih⟩
    rcases scan_location _ _ t later with same | after
    · exact same ▸ solid
    · exact solid.trans after

theorem ofText_locations_nodup (text : String) : ((ofText text).toList.map Token.location).Nodup := by
  rw [List.Nodup, List.pairwise_map]
  exact (scan_pairwise .start text.toList).imp fun before => before.ne

/-- The tokens with their numbers for places. -/
def numbered (ts : Tokens) : Tokens :=
  ⟨(ts.list.map Token.shape).mapIdx fun i s => ⟨s.kind, s.literal, ⟨i, 0⟩⟩,
    ⟨ts.final.kind, ts.final.literal, ⟨ts.list.length, 0⟩⟩⟩

/-- Where the token with a number stands. -/
def place (ts : Tokens) (number : Location) : Location :=
  (ts.toList[number.line]?.map Token.location).getD number

theorem numbered_list (ts : Tokens) : ts.numbered.list.map (Token.relocate ts.place) = ts.list := by
  apply List.ext_getElem
  · simp [numbered]
  · intro i _ small
    simp [numbered, place, toList, Token.shape, Token.relocate, List.getElem?_append_left small,
      List.getElem?_eq_getElem small]

theorem numbered_final (ts : Tokens) : ts.numbered.final.relocate ts.place = ts.final := by
  simp [numbered, place, toList, Token.relocate]

/-- Numbers do not depend on places. -/
theorem numbered_eq {ts ts' : Tokens} (same : ts.toList.map Token.shape = ts'.toList.map Token.shape) :
    ts.numbered = ts'.numbered := by
  simp only [toList, List.map_append, List.map_cons, List.map_nil] at same
  obtain ⟨lists, finals⟩ := List.append_inj' same rfl
  have final : ts.final.shape = ts'.final.shape := (List.cons.inj finals).1
  have kind : ts.final.kind = ts'.final.kind := congrArg Rendering.Shape.kind final
  have literal : ts.final.literal = ts'.final.literal := congrArg Rendering.Shape.literal final
  have length : ts.list.length = ts'.list.length := by simpa using congrArg List.length lists
  rw [numbered, numbered, lists, kind, literal, length]

end Tokens

namespace Parse

/-- Reading moved tokens moves all that is read and recorded. -/
theorem program_relocate (f : Location → Location) (final : Token) (ts : List Token) :
    program (final.relocate f) (ts.map (Token.relocate f)) =
      ((program final ts).1.map (Stmt.relocate f), (program final ts).2.map (Diagnostic.relocate f)) := by
  let m : Transfer := ⟨f, [], final, final.relocate f, True⟩
  have same : ∀ us, m.Bounded us := fun us => .inl ⟨rfl, rfl⟩
  have moved := m.program_carry ts (.inl ⟨same ts, fun _ _ _ => trivial⟩) (.inl (same []))
  simpa [m, Transfer.carry] using moved

/-- A diagnostic stands at a token: whatever map leaves the places of all tokens alone
leaves the diagnostic alone. -/
theorem location_of_fixed {f : Location → Location} {final : Token} {ts : List Token}
    (ends : f final.location = final.location) (each : ∀ t ∈ ts, f t.location = t.location) {d : Diagnostic}
    (recorded : d ∈ (program final ts).2) : f d.location = d.location := by
  have same : ts.map (Token.relocate f) = ts := by
    refine (List.map_congr_left fun t member => ?_).trans (List.map_id ts)
    rw [Token.relocate, each t member, id]
  have same' : final.relocate f = final := by rw [Token.relocate, ends]
  have fixed := congrArg Prod.snd (program_relocate f final ts)
  rw [same, same'] at fixed
  have alone : d.relocate f = d :=
    List.map_inj_left.mp (fixed.symm.trans (List.map_id _).symm) d recorded
  exact congrArg Diagnostic.location alone

end Parse

/-- The diagnostic points at the token with this number. -/
def Diagnostic.At (d : Diagnostic) (ts : List Token) (i : Nat) : Prop :=
  ts[i]?.map Token.location = some d.location

/-- A diagnostic but for its places. -/
def Diagnostic.unplaced (d : Diagnostic) : Diagnostic := d.relocate fun _ => .start

theorem Diagnostic.unplaced_relocate (f : Location → Location) (d : Diagnostic) :
    (d.relocate f).unplaced = d.unplaced := by
  obtain ⟨cause, l⟩ := d
  cases cause <;> rfl

/-- Results of compiling that differ in places only. -/
inductive SameButPlaces : Except CompileError String → Except CompileError String → Prop where
  | text (text : String) : SameButPlaces (.ok text) (.ok text)
  | malformed (ds ds' : List Diagnostic) :
      SameButPlaces (.error (.malformed ds)) (.error (.malformed ds'))
  | noCode (cause : GenError.Cause) (l l' : Location) :
      SameButPlaces (.error (.noCode ⟨cause, l⟩)) (.error (.noCode ⟨cause, l'⟩))

namespace Tokens

/-- What is read from tokens is what is read from their numbers, moved. -/
theorem program_numbered (ts : Tokens) :
    Parse.program ts.final ts.list =
      ((Parse.program ts.numbered.final ts.numbered.list).1.map (Stmt.relocate ts.place),
        (Parse.program ts.numbered.final ts.numbered.list).2.map (Diagnostic.relocate ts.place)) := by
  rw [← Parse.program_relocate, numbered_list, numbered_final]

/-- Diagnostics about numbered tokens are at numbers of tokens. -/
theorem exists_number (ts : Tokens) {d : Diagnostic}
    (recorded : d ∈ (Parse.program ts.numbered.final ts.numbered.list).2) :
    ∃ i < ts.toList.length, d.location = ⟨i, 0⟩ := by
  -- This map sends every place to the number of a token and leaves such numbers alone.
  let f : Location → Location := fun l => ⟨min l.line ts.list.length, 0⟩
  have fixed : f d.location = d.location := by
    apply Parse.location_of_fixed (f := f) ?_ ?_ recorded
    · simp [f, numbered]
    · intro t member
      simp only [numbered, List.mem_mapIdx] at member
      obtain ⟨i, small, rfl⟩ := member
      simp only [List.length_map] at small
      simp only [f]
      rw [Nat.min_eq_left (Nat.le_of_lt small)]
  refine ⟨min d.location.line ts.list.length, ?_, fixed.symm⟩
  rw [toList, List.length_append]
  exact Nat.lt_succ_of_le (Nat.min_le_right _ _)

/-- A diagnostic about a number points at the token with that number and at no other. -/
theorem at_place_iff {text : String} {d : Diagnostic} {i : Nat} (small : i < (ofText text).toList.length)
    (number : d.location = ⟨i, 0⟩) (j : Nat) :
    (d.relocate (ofText text).place).At (ofText text).toList j ↔ j = i := by
  have found : (ofText text).toList[i]?.map Token.location = some ((ofText text).place d.location) := by
    rw [place, number, List.getElem?_eq_getElem small]
    rfl
  unfold Diagnostic.At Diagnostic.relocate
  rw [← found]
  constructor
  · intro same
    rw [← List.getElem?_map, ← List.getElem?_map] at same
    have small' : i < ((ofText text).toList.map Token.location).length := by rwa [List.length_map]
    exact ((List.getElem?_inj small' (ofText_locations_nodup text)).mp same.symm).symm
  · rintro rfl
    rfl

end Tokens

theorem Program.read_eq_relocate (source : String) :
    Program.read source =
      (Program.relocate (Tokens.ofText source).place
          ⟨(Parse.program (Tokens.ofText source).numbered.final (Tokens.ofText source).numbered.list).1⟩,
        (Parse.program (Tokens.ofText source).numbered.final (Tokens.ofText source).numbered.list).2.map
          (Diagnostic.relocate (Tokens.ofText source).place)) := by
  unfold Program.read Program.relocate
  rw [Stmt.relocateAll_eq_map]
  dsimp only
  rw [Tokens.program_numbered (Tokens.ofText source)]

/-- Programs and diagnostics that differ in places only compile alike. -/
theorem compile_of_read {source source' : String} {p : Program} {ds : List Diagnostic} {f f' : Location → Location}
    (read : Program.read source = (p.relocate f, ds.map (Diagnostic.relocate f)))
    (read' : Program.read source' = (p.relocate f', ds.map (Diagnostic.relocate f'))) :
    SameButPlaces (compile source) (compile source') := by
  unfold compile Program.parse
  rw [read, read']
  cases ds with
  | cons d ds => exact .malformed _ _
  | nil =>
    simp only [List.map_nil, Generator.run_relocate]
    cases (Generator.new.run p).1 with
    | ok text => exact .text text
    | error error => exact .noCode error.cause _ _

/-- Two texts whose tokens agree but for their places have the same program but for
places, and diagnostics that point at the tokens with the same numbers, each at exactly
one; and they compile to the same text or fail for the same reason. -/
theorem compile_layout (source source' : String)
    (same : (Lexer.ofText source).tokenize.1.map Token.shape = (Lexer.ofText source').tokenize.1.map Token.shape) :
    (Program.read source).1.unplaced = (Program.read source').1.unplaced ∧
      List.Forall₂ (fun d d' => d.unplaced = d'.unplaced ∧ (∃! i, d.At (Lexer.ofText source).tokenize.1 i) ∧
          ∀ i, d.At (Lexer.ofText source).tokenize.1 i ↔ d'.At (Lexer.ofText source').tokenize.1 i)
        (Program.read source).2 (Program.read source').2 ∧
      SameButPlaces (compile source) (compile source') := by
  have agree : (Tokens.ofText source).toList.map Token.shape = (Tokens.ofText source').toList.map Token.shape := same
  have numbers := Tokens.numbered_eq agree
  have count : (Tokens.ofText source).toList.length = (Tokens.ofText source').toList.length := by
    simpa using congrArg List.length agree
  have read := Program.read_eq_relocate source
  have read' := Program.read_eq_relocate source'
  rw [← numbers] at read'
  refine ⟨?_, ?_, compile_of_read read read'⟩
  · rw [read, read', Program.unplaced_relocate, Program.unplaced_relocate]
  · rw [read, read', List.forall₂_map_left_iff, List.forall₂_map_right_iff, List.forall₂_same]
    intro d recorded
    obtain ⟨i, small, number⟩ := Tokens.exists_number _ recorded
    have here := Tokens.at_place_iff small number
    have there := Tokens.at_place_iff (count ▸ small) number
    refine ⟨by rw [Diagnostic.unplaced_relocate, Diagnostic.unplaced_relocate], ⟨i, (here i).mpr rfl, ?_⟩, ?_⟩
    · exact fun j found => (here j).mp found
    · exact fun j => (here j).trans (there j).symm

/-- A value is missing behind the equals sign, on the first line here and on the third
there. -/
theorem compile_layout_sample :
    ∃ source source', source = "x = ; print(x);" ∧ source' = "x /* a name */\n\n= // nothing\n; print ( x ) ;" ∧
      ∃ d d', (Program.read source).2 = [d] ∧ (Program.read source').2 = [d'] ∧
        d.location = ⟨1, 5⟩ ∧ d'.location = ⟨4, 1⟩ ∧ d'.At (Lexer.ofText source').tokenize.1 2 := by
  refine ⟨_, _, rfl, rfl, ?_⟩
  generalize given : "x = ; print(x);" = source
  generalize given' : "x /* a name */\n\n= // nothing\n; print ( x ) ;" = source'
  have same : (Lexer.ofText source).tokenize.1.map Token.shape = (Lexer.ofText source').tokenize.1.map Token.shape := by
    rw [← given, ← given']
    decide +kernel
  have first : (Program.read source).2 = [⟨.noOperand (.symbol .semicolon), ⟨1, 5⟩⟩] := by
    rw [← given]
    decide +kernel
  have second : (Program.read source').2 = [⟨.noOperand (.symbol .semicolon), ⟨4, 1⟩⟩] := by
    rw [← given']
    decide +kernel
  have pointed : (Lexer.ofText source).tokenize.1[2]?.map Token.location = some ⟨1, 5⟩ := by
    rw [← given]
    decide +kernel
  obtain ⟨_, diagnostics, _⟩ := compile_layout source source' same
  rw [first, second, List.forall₂_cons] at diagnostics
  exact ⟨_, _, first, second, rfl, rfl, (diagnostics.1.2.2 2).mp pointed⟩

end ImpToC
