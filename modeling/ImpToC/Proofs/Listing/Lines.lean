import ImpToC.Proofs.Spelling
import ImpToC.Tree.Outline

/-!
The lines of a listing can be told from its text. The text of a string stands in its line as
it is, line feeds and all, so a line of the text may be a part of a label and may look like a
line of the listing. But labels hold a line feed between quotes only, and a quote nowhere
else: a line ends with the first line feed behind an even number of quotes.
-/
namespace ImpToC

/-- Two texts that begin with runs of one class are equal run by run. -/
theorem append_inj_of_stop {p : Char → Bool} {run run' rest rest' : List Char}
    (all : ∀ c ∈ run, p c = true) (all' : ∀ c ∈ run', p c = true)
    (stops : ∀ c, rest.head? = some c → p c = false) (stops' : ∀ c, rest'.head? = some c → p c = false)
    (same : run ++ rest = run' ++ rest') : run = run' ∧ rest = rest' := by
  obtain ⟨taken, left⟩ := takeWhile_append_stop all stops
  obtain ⟨taken', left'⟩ := takeWhile_append_stop all' stops'
  rw [same] at taken left
  exact ⟨taken.symm.trans taken', left.symm.trans left'⟩

namespace Outline

/-- Behind a text that leaves a quote open or does not, the quotes are closed in the end and
line feeds are between quotes only. -/
def Sealed : Bool → List Char → Prop
  | quoted, [] => quoted = false
  | quoted, c :: cs =>
    if c = '"' then Sealed (!quoted) cs else (c = '\n' → quoted = true) ∧ Sealed quoted cs

/-- A label ends where the text goes on with a line feed that is not quoted. -/
theorem Sealed.append_inj {quoted : Bool} {label label' rest rest' : List Char} (closed : Sealed quoted label)
    (closed' : Sealed quoted label') (same : label ++ '\n' :: rest = label' ++ '\n' :: rest') :
    label = label' ∧ rest = rest' := by
  induction label generalizing quoted label' with
  | nil =>
    cases label' with
    | nil => exact ⟨rfl, (List.cons.inj same).2⟩
    | cons c label' =>
      obtain ⟨rfl, _⟩ := List.cons.inj same
      rw [Sealed, if_neg (by decide)] at closed'
      exact absurd (closed'.1 rfl) (by simp [show quoted = false from closed])
  | cons c label ih =>
    cases label' with
    | nil =>
      obtain ⟨rfl, _⟩ := List.cons.inj same
      rw [Sealed, if_neg (by decide)] at closed
      exact absurd (closed.1 rfl) (by simp [show quoted = false from closed'])
    | cons d label' =>
      obtain ⟨rfl, tails⟩ := List.cons.inj same
      rw [Sealed] at closed closed'
      by_cases quote : c = '"'
      · rw [if_pos quote] at closed closed'
        obtain ⟨rfl, rfl⟩ := ih closed closed' tails
        exact ⟨rfl, rfl⟩
      · rw [if_neg quote] at closed closed'
        obtain ⟨rfl, rfl⟩ := ih closed.2 closed'.2 tails
        exact ⟨rfl, rfl⟩

/-- Characters that are no quotes are passed over, and line feeds too if they are quoted. -/
theorem sealed_append {quoted : Bool} {front label : List Char}
    (plain : ∀ c ∈ front, c ≠ '"' ∧ (c = '\n' → quoted = true)) :
    Sealed quoted (front ++ label) ↔ Sealed quoted label := by
  induction front with
  | nil => rfl
  | cons c front ih =>
    obtain ⟨first, others⟩ := List.forall_mem_cons.mp plain
    rw [List.cons_append, Sealed, if_neg first.1, ih others]
    exact and_iff_right first.2

/-- A line that can be told from the text that it begins. -/
structure Line.Legible (line : Line) : Prop where
  solid : line.label.toList.head? ≠ some ' '
  closed : Sealed false line.label.toList

theorem Line.toList_render (line : Line) :
    line.render.toList = List.replicate (line.depth * 2) ' ' ++ (line.label.toList ++ ['\n']) := by
  have indent : (String.join (List.replicate line.depth "  ")).toList = List.replicate (line.depth * 2) ' ' := by
    have unit : "  ".toList = List.replicate 2 ' ' := rfl
    rw [String.toList_join, List.flatMap_def, List.map_replicate, unit, List.flatten_replicate_replicate]
  rw [render, String.toList_append, String.toList_append, indent, List.append_assoc]
  rfl

/-- Two legible lines in front of two texts. Their spaces are as many, so they stand in as
many levels, and then their labels end together. -/
theorem Line.render_append_inj {line line' : Line} {rest rest' : List Char} (legible : line.Legible)
    (legible' : line'.Legible) (same : line.render.toList ++ rest = line'.render.toList ++ rest') :
    line = line' ∧ rest = rest' := by
  rw [toList_render, toList_render, List.append_assoc, List.append_assoc, List.append_assoc,
    List.append_assoc] at same
  have space : ∀ n, ∀ c ∈ List.replicate n ' ', (c == ' ') = true := by
    intro n c member
    rw [List.eq_of_mem_replicate member]
    rfl
  have stops {line : Line} {rest : List Char} (legible : line.Legible) :
      ∀ c, (line.label.toList ++ (['\n'] ++ rest)).head? = some c → (c == ' ') = false := by
    intro c first
    rw [beq_eq_false_iff_ne]
    rintro rfl
    have solid := legible.solid
    cases text : line.label.toList with
    | nil => simp [text] at first
    | cons d label =>
      rw [text] at solid first
      exact solid first
  obtain ⟨indent, labels⟩ := append_inj_of_stop (space _) (space _) (stops legible) (stops legible') same
  obtain ⟨text, left⟩ := legible.closed.append_inj legible'.closed labels
  have levels := congrArg List.length indent
  rw [List.length_replicate, List.length_replicate] at levels
  refine ⟨?_, left⟩
  obtain ⟨depth, label⟩ := line
  obtain ⟨depth', label'⟩ := line'
  obtain rfl : depth = depth' := by
    dsimp only at levels
    omega
  obtain rfl : label = label' := String.toList_inj.mp text
  rfl

theorem render_inj {lines lines' : List Line} (legible : ∀ line ∈ lines, line.Legible)
    (legible' : ∀ line ∈ lines', line.Legible)
    (same : String.join (lines.map Line.render) = String.join (lines'.map Line.render)) : lines = lines' := by
  have some (line : Line) (rest : List Char) : line.render.toList ++ rest ≠ [] := by
    simp [Line.toList_render]
  induction lines generalizing lines' with
  | nil =>
    cases lines' with
    | nil => rfl
    | cons line' lines' =>
      have texts := congrArg String.toList same
      rw [List.map_cons, String.join_cons, String.toList_append] at texts
      exact absurd texts.symm (some line' _)
  | cons line lines ih =>
    have texts := congrArg String.toList same
    cases lines' with
    | nil =>
      rw [List.map_cons, String.join_cons, String.toList_append] at texts
      exact absurd texts (some line _)
    | cons line' lines' =>
      simp only [List.map_cons, String.join_cons, String.toList_append] at texts
      obtain ⟨first, others⟩ := List.forall_mem_cons.mp legible
      obtain ⟨first', others'⟩ := List.forall_mem_cons.mp legible'
      obtain ⟨rfl, left⟩ := Line.render_append_inj first first' texts
      rw [ih others others' (String.toList_inj.mp left)]

end Outline

end ImpToC
