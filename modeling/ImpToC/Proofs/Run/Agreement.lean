import ImpToC.Proofs.Run.Source
import ImpToC.Proofs.Run.Tree

/-!
When two actions agree: from every state they lead to the same state, both with
related results or both stopped for the same reason. Being stuck is a reason only where
that is allowed. Agreement passes through every step that the language and C share,
so a simulation only has to relate the results. The variables of a program decide
those of its C: same frames, same names, same values, each with its own type.
-/
namespace ImpToC.Run

variable {α β γ δ : Type} {R : α → β → Prop} {S : γ → δ → Prop} {strays : Prop}

/-- Only if it `strays` may both sides get stuck. -/
def Agrees (strays : Prop) (R : α → β → Prop) (x : Action α) (y : Action β) : Prop :=
  ∀ s, (∃ a b after, x s = (.ok a, after) ∧ y s = (.ok b, after) ∧ R a b) ∨
    ∃ reason after, x s = (.error reason, after) ∧ y s = (.error reason, after) ∧ (reason = .stuck → strays)

namespace Agrees

theorem pure {a : α} {b : β} (related : R a b) : Agrees strays R (pure a) (pure b) :=
  fun s => .inl ⟨a, b, s, rfl, rfl, related⟩

/-- Results that are related go on into actions that agree. -/
theorem bind {x : Action α} {y : Action β} {f : α → Action γ} {g : β → Action δ}
    (first : Agrees strays R x y) (rest : ∀ a b, R a b → Agrees strays S (f a) (g b)) :
    Agrees strays S (x >>= f) (y >>= g) := by
  intro s
  rcases first s with ⟨a, b, after, left, right, related⟩ | ⟨reason, after, left, right, allowed⟩
  · have leftStep : (x >>= f) s = f a after := by
      change Action.bind x f s = _
      rw [Action.bind, left]
    have rightStep : (y >>= g) s = g b after := by
      change Action.bind y g s = _
      rw [Action.bind, right]
    rw [leftStep, rightStep]
    exact rest a b related after
  · refine .inr ⟨reason, after, ?_, ?_, allowed⟩
    · change Action.bind x f s = _
      rw [Action.bind, left]
    · change Action.bind y g s = _
      rw [Action.bind, right]

theorem mono {R' : α → β → Prop} {x : Action α} {y : Action β} (agrees : Agrees strays R x y)
    (weaker : ∀ a b, R a b → R' a b) : Agrees strays R' x y := by
  intro s
  rcases agrees s with ⟨a, b, after, left, right, related⟩ | stopped
  · exact .inl ⟨a, b, after, left, right, weaker a b related⟩
  · exact .inr stopped

/-- What is known of the results of one side may be used in relating both. -/
theorem knowing {P : α → Prop} {x : Action α} {y : Action β} (agrees : Agrees strays R x y)
    (known : ∀ s a after, x s = (.ok a, after) → P a) : Agrees strays (fun a b => R a b ∧ P a) x y := by
  intro s
  rcases agrees s with ⟨a, b, after, left, right, related⟩ | stopped
  · exact .inl ⟨a, b, after, left, right, related, known s a after left⟩
  · exact .inr stopped

/-- Both stop for one reason, and are stuck only where the program strays. -/
theorem stop {reason : Stop} (allowed : reason = .stuck → strays) :
    Agrees strays R (stop reason : Action α) (Run.stop reason : Action β) :=
  fun s => .inr ⟨reason, s, rfl, rfl, allowed⟩

/-- Everything agrees with itself where it may get stuck. -/
theorem refl (allowed : strays) (x : Action α) : Agrees strays (· = ·) x x := by
  intro s
  rcases ran : x s with ⟨reason | a, after⟩
  · exact .inr ⟨reason, after, rfl, rfl, fun _ => allowed⟩
  · exact .inl ⟨a, a, after, rfl, rfl, rfl⟩

theorem tick : Agrees strays (· = ·) tick tick := by
  rintro ⟨steps, events⟩
  cases steps with
  | zero => exact .inr ⟨.outOfSteps, _, rfl, rfl, by simp⟩
  | succ steps => exact .inl ⟨(), (), _, rfl, rfl, rfl⟩

theorem writeLine (v : Value) : Agrees strays (· = ·) (writeLine v) (Run.writeLine v) :=
  fun _ => .inl ⟨(), (), _, rfl, rfl, rfl⟩

/-- Agreeing actions look the same from outside. -/
theorem outcome_eq {x : Action α} {y : Action β} (agrees : Agrees strays R x y) (bound : Nat) :
    y.outcome bound = x.outcome bound ∧ ((x.outcome bound).stopped = some .stuck → strays) := by
  unfold Action.outcome
  rcases agrees ⟨bound, []⟩ with ⟨a, b, after, left, right, _⟩ | ⟨reason, after, left, right, allowed⟩
  · rw [left, right]
    exact ⟨rfl, by simp⟩
  · rw [left, right]
    exact ⟨rfl, fun same => allowed (Option.some.inj same)⟩

end Agrees

/-- Two values that are the same, and of this type. -/
def SameOf (type : ValueType) (v w : Value) : Prop := v = w ∧ v.type = type

theorem SameOf.int {v w : Value} (same : SameOf .int v w) : ∃ n, v = .int n ∧ w = .int n := by
  obtain ⟨rfl, typed⟩ := same
  cases v with
  | int n => exact ⟨n, rfl, rfl⟩
  | str contents => cases typed

theorem SameOf.str {v w : Value} (same : SameOf .str v w) : ∃ t, v = .str t ∧ w = .str t := by
  obtain ⟨rfl, typed⟩ := same
  cases v with
  | int n => cases typed
  | str contents => exact ⟨contents, rfl, rfl⟩

theorem Agrees.unset (platform : Platform) (name : String) :
    Agrees strays (SameOf .int) (unset platform name) (Run.unset platform name) :=
  fun s => .inl ⟨_, _, s, rfl, rfl, rfl, rfl⟩

theorem Agrees.foreign (platform : Platform) (name : String) (args : List Value) :
    Agrees strays (SameOf .int) (foreign platform name args) (Run.foreign platform name args) := by
  intro s
  unfold Run.foreign
  cases platform.foreign s.events name args with
  | returns written value => exact .inl ⟨_, _, _, rfl, rfl, rfl, rfl⟩
  | ends written => exact .inr ⟨.ended, _, rfl, rfl, by simp⟩

theorem Agrees.integers (platform : Platform) (op : Operator) (a b : Int) :
    Agrees strays (SameOf .int) (integers platform op a b) (Run.integers platform op a b) := by
  unfold Run.integers
  split
  · exact .pure ⟨rfl, rfl⟩
  · exact .pure ⟨rfl, rfl⟩
  · split
    · exact .pure ⟨rfl, rfl⟩
    · exact .stop (by simp)

/-- The value of a call: the same on both sides, and an integer unless a helper gave it. -/
def SameCall (strays : Prop) (v w : Value) : Prop := v = w ∧ (v.type = .int ∨ strays)

/-- What the program does not define does the same on both sides. Calls count as integers; the
functions that emitted code relies on may give strings, and whoever calls them strays. -/
theorem Agrees.outside (platform : Platform) {name : String} (args : List Value)
    (known : name ∈ helpers → strays) :
    Agrees strays (SameCall strays) (outside platform name args) (Run.outside platform name args) := by
  by_cases helper : name ∈ helpers
  · exact (refl (known helper) _).mono fun v w same => ⟨same, .inr (known helper)⟩
  · simp only [helpers, List.mem_cons, List.not_mem_nil, or_false, not_or] at helper
    obtain ⟨output, comparison, join⟩ := helper
    rw [Run.outside, if_neg output, if_neg comparison, if_neg join]
    exact (foreign platform name args).mono fun v w same => ⟨same.1, .inl same.2⟩

namespace Frames

/-- The same variables, each with something else. -/
def map (f : α → β) (fs : Frames α) : Frames β :=
  List.map (List.map fun (name, a) => (name, f a)) fs

theorem lookup_mapped (f : α → β) (frame : List (String × α)) (name : String) :
    (frame.map fun (name, a) => (name, f a)).lookup name = (frame.lookup name).map f := by
  induction frame with
  | nil => rfl
  | cons entry rest ih =>
    obtain ⟨other, a⟩ := entry
    simp only [List.map_cons, List.lookup_cons]
    cases name == other with
    | true => rfl
    | false => exact ih

/-- A variable is found where it was, with what the map made of it. -/
theorem lookup?_map (f : α → β) (fs : Frames α) (name : String) :
    (fs.map f).lookup? name = (fs.lookup? name).map f := by
  induction fs with
  | nil => rfl
  | cons frame outer ih =>
    change (List.map _ (frame :: outer)).findSome? _ = ((frame :: outer).findSome? _).map f
    simp only [List.map_cons, List.findSome?_cons, lookup_mapped]
    cases frame.lookup name with
    | some a => rfl
    | none => exact ih

theorem declare_map (f : α → β) (fs : Frames α) (name : String) (a : α) :
    (fs.map f).declare name (f a) = (fs.declare name a).map f := by
  cases fs <;> rfl

theorem setIn_map (f : α → β) (frame : List (String × α)) (name : String) (a : α) :
    setIn name (f a) (frame.map fun (name, a) => (name, f a)) =
      (setIn name a frame).map fun (name, a) => (name, f a) := by
  induction frame with
  | nil => rfl
  | cons entry rest ih =>
    obtain ⟨other, old⟩ := entry
    simp only [List.map_cons, setIn]
    split
    · rfl
    · rw [ih, List.map_cons]

theorem assign?_map (f : α → β) (fs : Frames α) (name : String) (a : α) :
    (fs.map f).assign? name (f a) = (fs.assign? name a).map (map f) := by
  induction fs with
  | nil => rfl
  | cons frame outer ih =>
    change assign? name (f a) (List.map _ (frame :: outer)) = _
    simp only [List.map_cons, assign?, lookup_mapped]
    cases frame.lookup name with
    | some old => simp [setIn_map, map]
    | none =>
      change Option.map _ ((map f outer).assign? name (f a)) = _
      rw [ih]
      simp [Function.comp_def, map]

theorem setIn_self (frame : List (String × α)) (name : String) (a : α)
    (found : frame.lookup name = some a) : setIn name a frame = frame := by
  induction frame with
  | nil => rfl
  | cons entry rest ih =>
    obtain ⟨other, old⟩ := entry
    rw [List.lookup_cons] at found
    rw [setIn]
    cases same : name == other with
    | true =>
      rw [same] at found
      cases found
      rw [if_pos (by simpa using (beq_iff_eq.mp same).symm)]
    | false =>
      rw [same] at found
      rw [if_neg (by simpa using Ne.symm (beq_eq_false_iff_ne.mp same)), ih found]

/-- To assign what a variable holds already changes nothing. -/
theorem assign?_self (fs : Frames α) (name : String) (a : α) (found : fs.lookup? name = some a) :
    fs.assign? name a = some fs := by
  induction fs with
  | nil => cases found
  | cons frame outer ih =>
    change (frame :: outer).findSome? _ = some a at found
    rw [List.findSome?_cons] at found
    rw [assign?]
    cases inner : frame.lookup name with
    | some old =>
      rw [inner] at found
      cases found
      simp [setIn_self frame name a inner]
    | none =>
      rw [inner] at found
      simp [ih found]

/-- A name can be assigned to exactly when it means something. -/
theorem assign?_eq_none (fs : Frames α) (name : String) (a : α) :
    fs.assign? name a = none ↔ fs.lookup? name = none := by
  induction fs with
  | nil => exact ⟨fun _ => rfl, fun _ => rfl⟩
  | cons frame outer ih =>
    change _ ↔ (frame :: outer).findSome? _ = none
    rw [List.findSome?_cons, assign?]
    cases frame.lookup name with
    | some old => simp
    | none =>
      rw [Option.map_eq_none_iff]
      exact ih

end Frames

/-- The types of variables, as the generator would know them. -/
def scopesOf (env : Frames Value) : Scopes := ⟨env.map Value.type⟩

/-- The variables as C keeps them. -/
def codeOf (env : Frames Value) : C.Env := env.map fun v => ⟨v.type, some v⟩

theorem scopesOf_lookup? (env : Frames Value) (name : String) :
    (scopesOf env).lookup? name = (env.lookup? name).map Value.type :=
  Frames.lookup?_map _ env name

theorem codeOf_lookup? (env : Frames Value) (name : String) :
    (codeOf env).lookup? name = (env.lookup? name).map fun v => ⟨v.type, some v⟩ :=
  Frames.lookup?_map _ env name

theorem scopesOf_declare (env : Frames Value) (name : String) (v : Value) :
    scopesOf (env.declare name v) = (scopesOf env).bind name v.type := by
  unfold scopesOf
  rw [← Frames.declare_map]
  rfl

theorem codeOf_declare (env : Frames Value) (name : String) (v : Value) :
    codeOf (env.declare name v) = (codeOf env).declare name ⟨v.type, some v⟩ :=
  (Frames.declare_map _ env name v).symm

/-- A value of the right type changes no type. -/
theorem scopesOf_assign {env after : Frames Value} {name : String} {v : Value}
    (known : (scopesOf env).lookup? name = some v.type) (done : env.assign? name v = some after) :
    scopesOf after = scopesOf env := by
  have same := Frames.assign?_self (env.map Value.type) name v.type known
  rw [Frames.assign?_map, done, Option.map_some, Option.some.injEq] at same
  rw [scopesOf, same]
  rfl

/-- The names of the innermost frame are those of the innermost scope. -/
theorem codeOf_innermost (env : Frames Value) :
    ((codeOf env).headD []).map Prod.fst = (scopesOf env).innermost := by
  cases env with
  | nil => rfl
  | cons frame outer => simp [codeOf, scopesOf, Frames.map, Scopes.innermost]

end ImpToC.Run
