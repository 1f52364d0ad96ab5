import Mathlib.Data.List.Chain
import ImpToC.Proofs.C.Grammar

/-!
Keywords in front of a parenthesis. The grammar puts a condition behind `if`, and what is
returned may start with a parenthesis; behind no other keyword does it allow one. So a text in
which another keyword is called can be read in no way at all.
-/
namespace ImpToC.C.Grammar

/-- A keyword that no parenthesis can follow. -/
def Tok.IsStray : Tok → Prop
  | .word text => text ∈ keywords ∧ text ≠ "if" ∧ text ≠ "return"
  | _ => False

/-- No keyword is called. -/
def Proper (ts : List Tok) : Prop := ts.IsChain fun t u => t.IsStray → u ≠ .leftParen

theorem not_isStray_word {name : String} (free : name ∉ keywords) : ¬ (Tok.word name).IsStray :=
  fun stray => free stray.1

theorem not_proper_call {name : String} (stray : (Tok.word name).IsStray) (ts : List Tok) :
    ¬ Proper (.word name :: .leftParen :: ts) :=
  fun proper => (List.isChain_cons_cons.mp proper).1 stray rfl

namespace Proper

theorem of_append {ts us : List Tok} (proper : Proper (ts ++ us)) : Proper ts ∧ Proper us :=
  ⟨(List.isChain_append.mp proper).1, (List.isChain_append.mp proper).2.1⟩

theorem of_cons {t : Tok} {ts : List Tok} (proper : Proper (t :: ts)) : Proper ts :=
  (List.isChain_cons.mp proper).2

/-- A token that is no such keyword can stand in front of anything. -/
theorem cons {t : Tok} {ts : List Tok} (calm : ¬ t.IsStray) (proper : Proper ts) : Proper (t :: ts) :=
  List.isChain_cons.mpr ⟨fun _ _ stray => absurd stray calm, proper⟩

/-- Every token can stand in front of one that is no parenthesis. -/
theorem cons_cons {t u : Tok} {ts : List Tok} (other : u ≠ .leftParen) (proper : Proper (u :: ts)) :
    Proper (t :: u :: ts) :=
  List.isChain_cons_cons.mpr ⟨fun _ => other, proper⟩

theorem append {ts us : List Tok} (calm : ∀ t ∈ ts, ¬ t.IsStray) (proper : Proper us) : Proper (ts ++ us) := by
  induction ts with
  | nil => exact proper
  | cons t ts ih =>
    obtain ⟨first, others⟩ := List.forall_mem_cons.mp calm
    exact (ih others).cons first

end Proper

/-- The words of an expression are names. -/
theorem Derives.not_isStray {phrase : Phrase} {ts : List Tok} (derives : Derives phrase ts) :
    ∀ t ∈ ts, ¬ t.IsStray := by
  induction derives with
  | ident free =>
    intro t member
    rw [List.mem_singleton.mp member]
    exact not_isStray_word free
  | number read => simp [Tok.IsStray]
  | literal => simp [Tok.IsStray]
  | paren _ ih =>
    simp only [List.forall_mem_cons, List.forall_mem_append]
    exact ⟨id, ih, id, by simp⟩
  | call _ _ function given =>
    simp only [List.forall_mem_cons, List.forall_mem_append]
    exact ⟨function, id, given, id, by simp⟩
  | binary _ _ first second =>
    simp only [List.forall_mem_cons, List.forall_mem_append]
    exact ⟨first, id, second⟩
  | tighter _ ih => exact ih
  | none => simp
  | last _ ih => exact ih
  | more _ _ first others =>
    simp only [List.forall_mem_cons, List.forall_mem_append]
    exact ⟨first, id, others⟩

theorem Derives.proper_append {phrase : Phrase} {ts rest : List Tok} (derives : Derives phrase ts)
    (proper : Proper rest) : Proper (ts ++ rest) :=
  .append derives.not_isStray proper

theorem proper_type {type : ValueType} {name : String} {rest : List Tok}
    (proper : Proper (.word name :: rest)) : Proper (typeTokens type ++ .word name :: rest) := by
  cases type with
  | int => exact proper.cons_cons (by simp)
  | str => exact (proper.cons id).cons_cons (by simp)

theorem proper_condition {condition : Expr} {ts body : List Tok} (test : Derives (.expr 1 condition) ts)
    (proper : Proper body) :
    Proper (.word "if" :: .leftParen :: (ts ++ .rightParen :: .leftBrace :: body)) :=
  ((test.proper_append ((proper.cons id).cons id)).cons id).cons fun stray => stray.2.1 rfl

/-- Statements in front of proper tokens are proper. -/
theorem Parses.proper {part : Part} {input rest : List Tok} (parses : Parses part input rest)
    (proper : Proper rest) : Proper input := by
  induction parses with
  | declare free => exact proper_type ((proper.cons id).cons (not_isStray_word free))
  | initialise free given =>
    exact proper_type (((given.proper_append (proper.cons id)).cons id).cons (not_isStray_word free))
  | assign free given => exact ((given.proper_append (proper.cons id)).cons id).cons (not_isStray_word free)
  | expr given => exact given.proper_append (proper.cons id)
  | ret given => exact (given.proper_append (proper.cons id)).cons fun stray => stray.2.2 rfl
  | branch test _ _ taken => exact proper_condition test (taken (proper.cons id))
  | choice test _ _ taken untaken =>
    have other : Proper (.leftBrace :: _) := (untaken (proper.cons id)).cons id
    exact proper_condition test (taken ((other.cons_cons (by simp)).cons id))
  | block _ inside => exact (inside (proper.cons id)).cons id
  | nil => exact proper
  | cons _ _ first others => exact first (others proper)

theorem proper_params {params : List String} {rest : List Tok} (free : ∀ name ∈ params, name ∉ keywords)
    (proper : Proper rest) : Proper (paramTokens params ++ rest) := by
  induction params using paramTokens.induct with
  | case1 => exact proper
  | case2 name => exact (proper.cons (not_isStray_word (free name (by simp)))).cons_cons (by simp)
  | case3 name other names ih =>
    obtain ⟨first, others⟩ := List.forall_mem_cons.mp free
    exact (((ih others).cons id).cons (not_isStray_word first)).cons_cons (by simp)

theorem proper_signature {name : String} {params : List String} {rest : List Tok}
    (free : ∀ word ∈ name :: params, word ∉ keywords) (proper : Proper rest) :
    Proper (signatureTokens name params ++ rest) := by
  obtain ⟨first, others⟩ := List.forall_mem_cons.mp free
  rw [signatureTokens, List.cons_append, List.cons_append, List.cons_append, List.append_assoc]
  exact (((proper_params others (proper.cons id)).cons id).cons (not_isStray_word first)).cons_cons (by simp)

/-- In a file that can be read no keyword is called. -/
theorem File.proper {items : List Item} {ts : List Tok} (file : File items ts) : Proper ts := by
  induction file with
  | nil => exact .nil
  | prototype free _ others => exact proper_signature free (others.cons id)
  | definition free inside _ others => exact proper_signature free ((inside.proper (others.cons id)).cons id)

end ImpToC.C.Grammar
