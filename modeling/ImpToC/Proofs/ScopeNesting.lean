import Mathlib.Data.List.Induction
import Mathlib.Data.List.Infix
import ImpToC.Scopes

/-!
Opening a scope and closing it again. Between the two anything may be done that closes only
what it has opened itself: then the scope that is closed in the end is the one that was opened
first, and the variables are what they were. In between a name means what it was declared as
in the innermost scope that is still open and has it, and what it meant before if there is
none.
-/
namespace ImpToC.Scopes

/-- What can be done with scopes. -/
inductive Step where
  | push
  | pop
  | declare (name : String) (type : ValueType)
  | lookup (name : String)
  deriving DecidableEq, Repr

/-- A declaration that is refused changes nothing, nor does a question. -/
def perform (s : Scopes) : Step → Scopes
  | .push => s.push
  | .pop => s.pop
  | .declare name type => (s.declare? name type).getD s
  | .lookup _ => s

def run (s : Scopes) (steps : List Step) : Scopes := steps.foldl perform s

theorem run_concat (s : Scopes) (steps : List Step) (step : Step) :
    s.run (steps ++ [step]) = (s.run steps).perform step :=
  List.foldl_concat perform s step steps

/-- The scope that is open at first is not left on the way. -/
def Stays (steps : List Step) : Prop := ∀ front, front <+: steps → front.count .pop ≤ front.count .push

instance (steps : List Step) : Decidable (Stays steps) :=
  decidable_of_iff (∀ front ∈ steps.inits, front.count .pop ≤ front.count .push) (by simp [Stays, List.mem_inits])

/-- Scopes are closed in the order opposite to the one they were opened in, and all of them. -/
structure WellNested (steps : List Step) : Prop where
  stays : Stays steps
  closed : steps.count .push = steps.count .pop

theorem stays_nil : Stays [] := by
  intro front shorter
  rw [List.prefix_nil.mp shorter]
  exact Nat.le_refl _

theorem stays_concat {steps : List Step} {step : Step} :
    Stays (steps ++ [step]) ↔
      Stays steps ∧ (steps ++ [step]).count .pop ≤ (steps ++ [step]).count .push := by
  constructor
  · intro stays
    exact ⟨fun front shorter => stays front (shorter.trans (List.prefix_append steps [step])),
      stays _ (List.prefix_refl _)⟩
  · intro ⟨stays, last⟩ front shorter
    rcases List.prefix_concat_iff.mp shorter with rfl | shorter
    · exact last
    · exact stays front shorter

/-- Since a scope was opened in `s`, the name was declared, with success, and in a scope that
is still open and has `depth` others in it that are open too. -/
def Declared (s : Scopes) (steps : List Step) (name : String) (type : ValueType) (depth : Nat) : Prop :=
  ∃ before after, steps = before ++ .declare name type :: after ∧
    ((s.push.run before).declare? name type).isSome ∧
    Stays after ∧ after.count .push = after.count .pop + depth

/-- The declaration is the last step, or it was made before. -/
theorem declared_concat {s : Scopes} {steps : List Step} {step : Step} {name : String} {type : ValueType}
    {depth : Nat} :
    Declared s (steps ++ [step]) name type depth ↔
      (step = .declare name type ∧ ((s.push.run steps).declare? name type).isSome ∧ depth = 0) ∨
        ∃ before after, steps = before ++ .declare name type :: after ∧
          ((s.push.run before).declare? name type).isSome ∧ Stays (after ++ [step]) ∧
          (after ++ [step]).count .push = (after ++ [step]).count .pop + depth := by
  constructor
  · intro ⟨before, after, parted, succeeds, stays, height⟩
    rcases List.eq_nil_or_concat after with rfl | ⟨rest, last, rfl⟩
    · obtain ⟨rfl, same⟩ := List.append_inj' parted rfl
      cases same
      refine .inl ⟨rfl, succeeds, ?_⟩
      simpa using height.symm
    · rw [List.concat_eq_append, ← List.cons_append, ← List.append_assoc] at parted
      obtain ⟨rfl, same⟩ := List.append_inj' parted rfl
      cases same
      rw [List.concat_eq_append] at stays height
      exact .inr ⟨before, rest, rfl, succeeds, stays, height⟩
  · intro last
    rcases last with ⟨rfl, succeeds, rfl⟩ | ⟨before, after, rfl, succeeds, stays, height⟩
    · exact ⟨steps, [], rfl, succeeds, stays_nil, rfl⟩
    · exact ⟨before, after ++ [step], by simp, succeeds, stays, height⟩

/-- A new scope has no variables, and the others are one further out. -/
theorem declared_push {s : Scopes} {steps : List Step} {name : String} {type : ValueType} {depth : Nat} :
    Declared s (steps ++ [.push]) name type depth ↔ ∃ n, depth = n + 1 ∧ Declared s steps name type n := by
  rw [declared_concat]
  simp only [stays_concat, List.count_append, List.count_singleton_self, reduceCtorEq, false_and, false_or]
  constructor
  · intro ⟨before, after, parted, succeeds, ⟨stays, _⟩, height⟩
    have enough := stays after (List.prefix_refl after)
    have none : [Step.push].count .pop = 0 := rfl
    refine ⟨depth - 1, by omega, before, after, parted, succeeds, stays, by omega⟩
  · intro ⟨n, next, before, after, parted, succeeds, stays, height⟩
    have none : [Step.push].count .pop = 0 := rfl
    exact ⟨before, after, parted, succeeds, ⟨stays, by omega⟩, by omega⟩

/-- The innermost scope is gone with its variables. -/
theorem declared_pop {s : Scopes} {steps : List Step} {name : String} {type : ValueType} {depth : Nat} :
    Declared s (steps ++ [.pop]) name type depth ↔ Declared s steps name type (depth + 1) := by
  rw [declared_concat]
  simp only [stays_concat, List.count_append, List.count_singleton_self, reduceCtorEq, false_and, false_or]
  have none : [Step.pop].count .push = 0 := rfl
  constructor
  · intro ⟨before, after, parted, succeeds, ⟨stays, _⟩, height⟩
    exact ⟨before, after, parted, succeeds, stays, by omega⟩
  · intro ⟨before, after, parted, succeeds, stays, height⟩
    exact ⟨before, after, parted, succeeds, ⟨stays, by omega⟩, by omega⟩

/-- All other steps leave the scopes open that are. -/
theorem declared_within {s : Scopes} {steps : List Step} {step : Step} {name : String} {type : ValueType}
    {depth : Nat} (opens : step ≠ .push) (closes : step ≠ .pop) :
    Declared s (steps ++ [step]) name type depth ↔
      (step = .declare name type ∧ ((s.push.run steps).declare? name type).isSome ∧ depth = 0) ∨
        Declared s steps name type depth := by
  rw [declared_concat]
  have none : [step].count .push = 0 := by simp [opens]
  have none' : [step].count .pop = 0 := by simp [closes]
  refine or_congr_right ⟨?_, ?_⟩
  · intro ⟨before, after, parted, succeeds, stays, height⟩
    rw [List.count_append, List.count_append, none, none'] at height
    exact ⟨before, after, parted, succeeds, (stays_concat.mp stays).1, height⟩
  · intro ⟨before, after, parted, succeeds, stays, height⟩
    refine ⟨before, after, parted, succeeds, stays_concat.mpr ⟨stays, ?_⟩, ?_⟩
    all_goals rw [List.count_append, List.count_append, none, none']
    · exact stays after (List.prefix_refl after)
    · exact height

/-- The scopes that were opened in `s` and are still open, with just the variables that were
declared in them. -/
structure Follows (s : Scopes) (steps : List Step) (inner : List (List (String × ValueType))) : Prop where
  frames : (s.push.run steps).frames = inner ++ s.frames
  height : inner.length + steps.count .pop = steps.count .push + 1
  lookup : ∀ depth name type,
    inner[depth]?.bind (·.lookup name) = some type ↔ Declared s steps name type depth

/-- The first of some that gives anything. -/
theorem findSome?_of_first {α β : Type} {f : α → Option β} {xs : List α} {n : Nat} {b : β}
    (found : xs[n]?.bind f = some b) (first : ∀ m < n, xs[m]?.bind f = none) : xs.findSome? f = some b := by
  induction xs generalizing n with
  | nil => simp at found
  | cons x xs ih =>
    cases n with
    | zero =>
      rw [List.getElem?_cons_zero, Option.bind_some] at found
      rw [List.findSome?_cons, found]
    | succ n =>
      have skipped := first 0 (Nat.succ_pos n)
      rw [List.getElem?_cons_zero, Option.bind_some] at skipped
      rw [List.findSome?_cons, skipped]
      apply ih found
      intro m less
      exact first (m + 1) (Nat.succ_lt_succ less)

namespace Follows

variable {s : Scopes} {steps : List Step} {inner : List (List (String × ValueType))}

theorem start (s : Scopes) : Follows s [] [[]] := by
  refine ⟨rfl, rfl, ?_⟩
  intro depth name type
  constructor
  · intro found
    cases depth <;> simp at found
  · intro ⟨before, after, parted, _⟩
    simp at parted

theorem push (follows : Follows s steps inner) : Follows s (steps ++ [.push]) ([] :: inner) := by
  refine ⟨?_, ?_, ?_⟩
  · rw [run_concat, List.cons_append, ← follows.frames]
    rfl
  · have height := follows.height
    simp
    omega
  · intro depth name type
    rw [declared_push]
    cases depth with
    | zero => simp
    | succ depth => simp [follows.lookup]

theorem pop (follows : Follows s steps inner) (left : steps.count .pop < steps.count .push) :
    Follows s (steps ++ [.pop]) inner.tail := by
  have height := follows.height
  cases inner with
  | nil =>
    rw [List.length_nil] at height
    omega
  | cons frame inner =>
    refine ⟨?_, ?_, ?_⟩
    · rw [run_concat, perform, Scopes.pop, follows.frames]
      rfl
    · simp at height ⊢
      omega
    · intro depth name type
      rw [declared_pop, ← follows.lookup]
      rfl

theorem ask (follows : Follows s steps inner) (name : String) :
    Follows s (steps ++ [.lookup name]) inner := by
  refine ⟨?_, ?_, ?_⟩
  · rw [run_concat, perform, follows.frames]
  · have height := follows.height
    simpa using height
  · intro depth other type
    rw [declared_within (by simp) (by simp), ← follows.lookup]
    simp

variable {frame : List (String × ValueType)}

/-- A name that the innermost scope has is refused. -/
theorem declare?_of_some (follows : Follows s steps (frame :: inner)) {name : String} {other : ValueType}
    (taken : frame.lookup name = some other) (type : ValueType) :
    (s.push.run steps).declare? name type = none := by
  rw [declare?, follows.frames]
  simp [taken]

theorem declare?_of_none (follows : Follows s steps (frame :: inner)) {name : String}
    (free : frame.lookup name = none) (type : ValueType) :
    (s.push.run steps).declare? name type = some ⟨((name, type) :: frame) :: (inner ++ s.frames)⟩ := by
  rw [declare?, follows.frames]
  simp [free]

theorem declare_of_some (follows : Follows s steps (frame :: inner)) {name : String} {other : ValueType}
    (taken : frame.lookup name = some other) (type : ValueType) :
    Follows s (steps ++ [.declare name type]) (frame :: inner) := by
  have refused := follows.declare?_of_some taken type
  refine ⟨?_, ?_, ?_⟩
  · rw [run_concat, perform, refused]
    exact follows.frames
  · have height := follows.height
    simpa using height
  · intro depth name' type'
    rw [declared_within (by simp) (by simp), ← follows.lookup]
    constructor
    · exact .inr
    · intro either
      rcases either with ⟨same, succeeds, _⟩ | before
      · cases same
        rw [refused] at succeeds
        cases succeeds
      · exact before

theorem declare_of_none (follows : Follows s steps (frame :: inner)) {name : String}
    (free : frame.lookup name = none) (type : ValueType) :
    Follows s (steps ++ [.declare name type]) (((name, type) :: frame) :: inner) := by
  have declared := follows.declare?_of_none free type
  refine ⟨?_, ?_, ?_⟩
  · rw [run_concat, perform, declared]
    rfl
  · have height := follows.height
    simpa using height
  · intro depth name' type'
    rw [declared_within (by simp) (by simp), ← follows.lookup]
    cases depth with
    | succ depth => simp
    | zero =>
      by_cases same : name' = name
      · subst same
        simp [free, follows.declare?_of_none free]
      · simp [List.lookup_cons, beq_false_of_ne same, Ne.symm same]

/-- What a name means is asked of the scopes in question first. -/
theorem lookup?_eq (follows : Follows s steps inner) (name : String) :
    (s.push.run steps).lookup? name = (inner.findSome? (·.lookup name)).or (s.lookup? name) := by
  rw [lookup?, follows.frames, List.findSome?_append]
  rfl

theorem lookup?_innermost (follows : Follows s steps inner) {name : String} {type : ValueType} {depth : Nat}
    (declared : Declared s steps name type depth)
    (first : ∀ n < depth, ∀ other, ¬ Declared s steps name other n) :
    (s.push.run steps).lookup? name = some type := by
  have found := (follows.lookup depth name type).mpr declared
  have free : ∀ n < depth, inner[n]?.bind (·.lookup name) = none := by
    intro n less
    rw [Option.eq_none_iff_forall_ne_some]
    intro other present
    exact first n less other ((follows.lookup n name other).mp present)
  rw [follows.lookup?_eq, findSome?_of_first found free]
  rfl

theorem lookup?_outside (follows : Follows s steps inner) {name : String}
    (undeclared : ∀ type depth, ¬ Declared s steps name type depth) :
    (s.push.run steps).lookup? name = s.lookup? name := by
  have free : inner.findSome? (·.lookup name) = none := by
    rw [List.findSome?_eq_none_iff]
    intro frame member
    obtain ⟨depth, stands⟩ := List.mem_iff_getElem?.mp member
    rw [Option.eq_none_iff_forall_ne_some]
    intro type present
    apply undeclared type depth
    rw [← follows.lookup, stands]
    exact present
  rw [follows.lookup?_eq, free]
  rfl

/-- Only a name that the innermost scope has already is refused. -/
theorem declare?_isSome_iff (follows : Follows s steps (frame :: inner)) (name : String) (type : ValueType) :
    ((s.push.run steps).declare? name type).isSome ↔ ∀ other, ¬ Declared s steps name other 0 := by
  have innermost := fun other => follows.lookup 0 name other
  simp only [List.getElem?_cons_zero, Option.bind_some] at innermost
  cases found : frame.lookup name with
  | none =>
    rw [follows.declare?_of_none found]
    simp [← innermost, found]
  | some known =>
    rw [follows.declare?_of_some found]
    simp [← innermost, found]

end Follows

/-- Whatever is done without leaving the scope that was opened, the scopes in it are followed. -/
theorem exists_follows (s : Scopes) {steps : List Step} (stays : Stays steps) :
    ∃ frame inner, Follows s steps (frame :: inner) := by
  induction steps using List.reverseRecOn with
  | nil => exact ⟨[], [], .start s⟩
  | append_singleton steps step ih =>
    obtain ⟨before, last⟩ := stays_concat.mp stays
    obtain ⟨frame, inner, follows⟩ := ih before
    cases step with
    | push => exact ⟨_, _, follows.push⟩
    | lookup name => exact ⟨_, _, follows.ask name⟩
    | declare name type =>
      cases found : frame.lookup name with
      | some other => exact ⟨_, _, follows.declare_of_some found type⟩
      | none => exact ⟨_, _, follows.declare_of_none found type⟩
    | pop =>
      have height := follows.height
      have left : steps.count .pop < steps.count .push := by
        simp at last
        omega
      cases inner with
      | nil =>
        simp at height
        omega
      | cons outer inner => exact ⟨outer, inner, follows.pop left⟩

/-- A scope that is opened and closed again, with anything well nested in between, leaves all
as it was. At each point in between a name has the type that it was declared with in the
innermost scope still open that has it, or else the one from before. A declaration fails just
if the innermost scope has the name. -/
theorem bracket_restores (s : Scopes) (steps : List Step) (nested : WellNested steps) :
    s.run (.push :: (steps ++ [.pop])) = s ∧
    (∀ name, (s.run (.push :: (steps ++ [.pop]))).lookup? name = s.lookup? name) ∧
    ∀ done rest, steps = done ++ rest → ∀ name,
      (∀ type depth, Declared s done name type depth →
        (∀ n < depth, ∀ other, ¬ Declared s done name other n) →
          (s.push.run done).lookup? name = some type) ∧
      ((∀ type depth, ¬ Declared s done name type depth) → (s.push.run done).lookup? name = s.lookup? name) ∧
      ∀ type, ((s.push.run done).declare? name type).isSome ↔ ∀ other, ¬ Declared s done name other 0 := by
  have restored : s.run (.push :: (steps ++ [.pop])) = s := by
    obtain ⟨frame, inner, follows⟩ := exists_follows s nested.stays
    have height := follows.height
    have closed := nested.closed
    obtain rfl : inner = [] := by
      rw [List.length_cons] at height
      exact List.eq_nil_of_length_eq_zero (by omega)
    change (s.push.run (steps ++ [.pop])) = s
    rw [run_concat, perform, pop, follows.frames]
    rfl
  refine ⟨restored, fun name => by rw [restored], ?_⟩
  intro done rest parted name
  have stays : Stays done := by
    intro front shorter
    exact nested.stays front (shorter.trans ⟨rest, parted.symm⟩)
  obtain ⟨frame, inner, follows⟩ := exists_follows s stays
  refine ⟨?_, follows.lookup?_outside, follows.declare?_isSome_iff name⟩
  intro type depth declared first
  exact follows.lookup?_innermost declared first

/-- In a table without scopes. The name is declared in the scope that was opened, in one inside
of it, and there once more in vain; from an empty scope in that one it is seen as the second. -/
theorem bracket_restores_sample :
    ∃ done rest, WellNested (done ++ rest) ∧
      done = [.declare "x" .int, .push, .declare "x" .str, .declare "x" .int, .push] ∧
      empty.run (.push :: ((done ++ rest) ++ [.pop])) = empty ∧
      Declared empty done "x" .str 1 ∧ (empty.push.run done).lookup? "x" = some .str := by
  have nested : WellNested ([.declare "x" .int, .push, .declare "x" .str, .declare "x" .int, .push] ++
      [.lookup "x", .pop, .pop, .lookup "x"]) := ⟨by decide +kernel, rfl⟩
  have declared : Declared empty ([.declare "x" .int, .push, .declare "x" .str, .declare "x" .int] ++ [.push])
      "x" .str 1 :=
    ⟨[.declare "x" .int, .push], [.declare "x" .int, .push], rfl, by decide, by decide +kernel, rfl⟩
  have outer : ∀ other n, Declared empty ([.declare "x" .int, .push, .declare "x" .str, .declare "x" .int] ++
      [.push]) "x" other n → 1 ≤ n := by
    intro other n declared
    obtain ⟨m, next, _⟩ := declared_push.mp declared
    omega
  obtain ⟨restored, _, between⟩ := bracket_restores empty _ nested
  refine ⟨_, _, nested, rfl, restored, declared, (between _ _ rfl "x").1 .str 1 declared ?_⟩
  intro n less other inner
  exact absurd (outer other n inner) (Nat.not_le_of_lt less)

end ImpToC.Scopes
