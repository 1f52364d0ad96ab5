import ImpToC.Proofs.Run.Simulation

/-!
Sums of string literals. They are the expressions that become one literal, whatever is in
scope. The body of this literal is made of the bodies of the separate ones, one after the
other, and no escape forms or is taken in where two of them meet: it decodes to what they
decode to. So the literal holds what joining the separate ones at run time would give.
-/
namespace ImpToC

/-- The expression is built from string literals by `+` alone. Their texts are listed from
left to right. -/
inductive Expr.SumsLiterals : Expr → List String → Prop where
  | literal {text : String} {l : Location} : SumsLiterals (.str text l) [text]
  | sum {left right : Expr} {l : Location} {first second : List String}
      (leftSum : left.SumsLiterals first) (rightSum : right.SumsLiterals second) :
      SumsLiterals (.binary .add left right l) (first ++ second)

/-- The code is built from a literal for each of the texts by calls that join two strings. -/
inductive C.Expr.JoinsLiterals : C.Expr → List String → Prop where
  | literal {text : String} : JoinsLiterals (.str (C.Literal.body text)) [text]
  | concat {left right : C.Expr} {first second : List String}
      (leftJoin : left.JoinsLiterals first) (rightJoin : right.JoinsLiterals second) :
      JoinsLiterals (.concat left right) (first ++ second)

namespace C.Literal

/-- The bodies of several texts, one after the other. -/
def encodeAll (texts : List String) : List Char := texts.flatMap fun text => encode text.toList

/-- What several texts stand for, one after the other. -/
def valueAll (texts : List String) : List Char := texts.flatMap fun text => value text.toList

@[simp] theorem encodeAll_append (first second : List String) :
    encodeAll (first ++ second) = encodeAll first ++ encodeAll second := List.flatMap_append

@[simp] theorem valueAll_append (first second : List String) :
    valueAll (first ++ second) = valueAll first ++ valueAll second := List.flatMap_append

/-- Where two bodies meet, each of them is still decoded as if it stood alone. -/
theorem decode?_encodeAll {texts : List String} (noQuotes : ∀ text ∈ texts, '"' ∉ text.toList) :
    decode? (encodeAll texts) = some (valueAll texts) := by
  induction texts with
  | nil => rfl
  | cons text texts ih =>
    obtain ⟨noQuote, others⟩ := List.forall_mem_cons.mp noQuotes
    have apart := decode?_encode_append text.toList (encodeAll texts) fun c member same =>
      noQuote (same ▸ member)
    change decode? (encode text.toList ++ encodeAll texts) = _
    rw [apart, ih others]
    rfl

theorem mapM_decode? {texts : List String} (noQuotes : ∀ text ∈ texts, '"' ∉ text.toList) :
    texts.mapM (fun text => decode? (body text).toList) = some (texts.map fun text => value text.toList) := by
  induction texts with
  | nil => rfl
  | cons text texts ih =>
    obtain ⟨noQuote, others⟩ := List.forall_mem_cons.mp noQuotes
    rw [List.mapM_cons, decode?_body noQuote, ih others]
    rfl

theorem nul_notMem_valueAll {texts : List String} (noNul : ∀ text ∈ texts, '\x00' ∉ text.toList) :
    '\x00' ∉ valueAll texts := by
  intro member
  obtain ⟨text, listed, inside⟩ := List.mem_flatMap.mp member
  exact nul_notMem_value (noNul text listed) inside

end C.Literal

namespace Expr.SumsLiterals

open C.Literal (encodeAll valueAll)

variable {e : Expr} {texts : List String}

/-- The body depends on the texts and their order only. -/
theorem literalBody?_eq (sums : e.SumsLiterals texts) :
    e.literalBody? = some (String.ofList (encodeAll texts)) := by
  induction sums with
  | @literal text l => simp [literalBody?, encodeAll, C.Literal.body]
  | @sum left right l first second _ _ leftBody rightBody =>
    rw [literalBody?, leftBody, rightBody, C.Literal.encodeAll_append, String.ofList_append]

theorem type_eq (sums : e.SumsLiterals texts) (scopes : Scopes) : e.type scopes = .str := by
  induction sums with
  | literal => rw [type]
  | sum _ _ leftType rightType => rw [type, leftType, rightType]

/-- Both operands are lowered first, and then it is the two bodies that are joined. -/
theorem lower_eq (sums : e.SumsLiterals texts) (functions : FunctionTable) (scopes : Scopes) :
    e.lower functions scopes = .ok (.str (String.ofList (encodeAll texts))) := by
  induction sums with
  | @literal text l => simp [lower, encodeAll, C.Literal.body]
  | @sum left right l first second leftSum rightSum leftCode rightCode =>
    have body : joined left right (.str (String.ofList (encodeAll first)))
        (.str (String.ofList (encodeAll second))) = .str (String.ofList (encodeAll (first ++ second))) := by
      rw [joined, leftSum.literalBody?_eq, rightSum.literalBody?_eq, C.Literal.encodeAll_append,
        String.ofList_append]
    refine lower_binary_ok.mpr ⟨_, _, leftCode, rightCode, lowerBinary_ok.mpr (.inr ?_)⟩
    exact ⟨leftSum.type_eq scopes, rightSum.type_eq scopes, .inl ⟨rfl, body.symm⟩⟩

end Expr.SumsLiterals

/-- Nothing but sums of literals has a body. -/
theorem Expr.sumsLiterals_of_literalBody? {e : Expr} {b : String} (folded : e.literalBody? = some b) :
    ∃ texts, e.SumsLiterals texts := by
  induction e using Expr.induction generalizing b with
  | str text l => exact ⟨_, .literal⟩
  | binary op left right l first second =>
    cases op with
    | add =>
      rw [literalBody?] at folded
      cases leftBody : left.literalBody? with
      | none => simp [leftBody] at folded
      | some x =>
        cases rightBody : right.literalBody? with
        | none => simp [leftBody, rightBody] at folded
        | some y =>
          obtain ⟨ls, leftSum⟩ := first leftBody
          obtain ⟨rs, rightSum⟩ := second rightBody
          exact ⟨_, .sum leftSum rightSum⟩
    | _ => simp [literalBody?] at folded
  | _ => simp [literalBody?] at folded

/-- Separate literals that are joined at run time, in whatever grouping. -/
theorem C.Expr.JoinsLiterals.eval_eq {code : C.Expr} {texts : List String} (joins : code.JoinsLiterals texts)
    (noQuotes : ∀ text ∈ texts, '"' ∉ text.toList) (noNul : ∀ text ∈ texts, '\x00' ∉ text.toList)
    (platform : Run.Platform) (call : Run.Caller) (env : C.Env) :
    code.eval platform call env = pure (.str (C.Literal.valueAll texts)) := by
  induction joins with
  | @literal text =>
    have whole := C.cut_eq_self (C.Literal.nul_notMem_value (noNul text (by simp)))
    rw [C.Expr.eval, C.literal, C.Literal.decode?_body (noQuotes text (by simp))]
    simp [C.Literal.valueAll, whole]
  | @concat left right first second _ _ leftValue rightValue =>
    obtain ⟨leftQuotes, rightQuotes⟩ := List.forall_mem_append.mp noQuotes
    obtain ⟨leftNul, rightNul⟩ := List.forall_mem_append.mp noNul
    rw [C.Expr.eval, leftValue leftQuotes leftNul, rightValue rightQuotes rightNul, C.Literal.valueAll_append]
    rfl

/-- An expression has a body exactly if it is a sum of string literals. Then it is a string
whatever is in scope, and its code is the literal with this body. Every sum of the same
literals in the same order has the same body. If there are no quotes in the texts, the body
decodes to what the separate bodies decode to, one after the other, and where no text holds
the character that ends a string in C, that is what joining the separate literals gives. -/
theorem Expr.folding_agrees (e : Expr) :
    ((∃ b, e.literalBody? = some b) ↔ ∃ texts, e.SumsLiterals texts) ∧
    ∀ b texts, e.literalBody? = some b → e.SumsLiterals texts →
      (∀ scopes, e.type scopes = .str) ∧
      (∀ functions scopes, e.lower functions scopes = .ok (.str b)) ∧
      (∀ other : Expr, other.SumsLiterals texts → other.literalBody? = some b) ∧
      ((∀ text ∈ texts, '"' ∉ text.toList) →
        ∃ contents, texts.mapM (fun text => C.Literal.decode? (C.Literal.body text).toList) = some contents ∧
          C.Literal.decode? b.toList = some contents.flatten ∧
          ((∀ text ∈ texts, '\x00' ∉ text.toList) → ∀ (code : C.Expr) platform call env,
            code.JoinsLiterals texts →
              code.eval platform call env = (C.Expr.str b).eval platform call env)) := by
  constructor
  · constructor
    · intro ⟨b, folded⟩
      exact sumsLiterals_of_literalBody? folded
    · intro ⟨texts, sums⟩
      exact ⟨_, sums.literalBody?_eq⟩
  · intro b texts folded sums
    obtain rfl : String.ofList (C.Literal.encodeAll texts) = b :=
      Option.some.inj (sums.literalBody?_eq.symm.trans folded)
    refine ⟨sums.type_eq, sums.lower_eq, fun other same => same.literalBody?_eq, fun noQuotes => ?_⟩
    have decoded := C.Literal.decode?_encodeAll noQuotes
    rw [String.toList_ofList]
    refine ⟨_, C.Literal.mapM_decode? noQuotes, ?_, fun noNul code platform call env joins => ?_⟩
    · rw [decoded, C.Literal.valueAll, List.flatMap_def]
    · rw [joins.eval_eq noQuotes noNul, C.Expr.eval, String.toList_ofList, C.literal, decoded]
      simp only [C.cut_eq_self (C.Literal.nul_notMem_valueAll noNul)]

/-- A backslash at the end of a literal stays one in front of a letter that it would make an
escape of, and in front of a digit. -/
theorem Expr.folding_agrees_sample :
    ∃ e texts, e = Expr.binary .add (.str "a\\" ⟨1, 1⟩) (.binary .add (.str "n" ⟨1, 8⟩) (.str "0" ⟨1, 14⟩) ⟨1, 12⟩)
        ⟨1, 6⟩ ∧ texts = ["a\\", "n", "0"] ∧ e.SumsLiterals texts ∧
      (∀ text ∈ texts, '"' ∉ text.toList) ∧ e.literalBody? = some "a\\\\n0" ∧
      (∀ functions scopes, e.lower functions scopes = .ok (.str "a\\\\n0")) ∧
      C.Literal.decode? "a\\\\n0".toList = some ['a', '\\', 'n', '0'] := by
  refine ⟨_, _, rfl, rfl, .sum .literal (.sum .literal .literal), by simp, rfl, ?_, ?_⟩
  · exact ((Expr.folding_agrees _).2 "a\\\\n0" _ rfl (.sum .literal (.sum .literal .literal))).2.1
  · obtain ⟨contents, each, whole, _⟩ :=
      ((Expr.folding_agrees (Expr.binary .add (.str "a\\" ⟨1, 1⟩)
        (.binary .add (.str "n" ⟨1, 8⟩) (.str "0" ⟨1, 14⟩) ⟨1, 12⟩) ⟨1, 6⟩)).2 "a\\\\n0" ["a\\", "n", "0"] rfl
        (.sum .literal (.sum .literal .literal))).2.2.2 (by simp)
    obtain rfl : [['a', '\\'], ['n'], ['0']] = contents := Option.some.inj (each.symm.trans rfl).symm
    exact whole

end ImpToC
