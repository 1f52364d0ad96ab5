import ImpToC.Host.Basic

/-!
What a program asks of its host. A host that keeps a record answers as the one it stands
for and writes every call down with its answer. A program that is run on it gives the same
result and leaves the same world, and the calls in the record, made one after the other,
lead from the world before to the one after.
-/
namespace ImpToC

namespace Host

/-- A call of the host with its answer. -/
inductive Call where
  | load (path : String) (answer : Except SystemError Bytes)
  | makeDirectories (path : String) (answer : Except SystemError Unit)
  | store (path : String) (content : Bytes) (answer : Except SystemError Unit)
  | find (name : String) (answer : Option Bytes)
  | execute (program : Bytes) (args : List String) (answer : Except SystemError Finished)
  | startLog (filter : String)
  | log (entry : LogEntry)

/-- Calls that are neither a question nor a word to the log. -/
def Call.changes : Call → Bool
  | load _ _ | find _ _ | startLog _ | log _ => false
  | makeDirectories _ _ | store _ _ _ | execute _ _ _ => true

variable {W : Type}

/-- A call that is written down once it has been answered. -/
def noting {α : Type} (call : StateM W α) (note : α → Call) : StateM (W × List Call) α := fun s =>
  let (answer, after) := call s.1
  (answer, after, s.2 ++ [note answer])

/-- The host with a record. -/
def recorded (host : Host (StateM W)) : Host (StateM (W × List Call)) where
  conventions := host.conventions
  load path := noting (host.load path) (.load path)
  makeDirectories path := noting (host.makeDirectories path) (.makeDirectories path)
  store path content := noting (host.store path content) (.store path content)
  find name := noting (host.find name) (.find name)
  execute program args := noting (host.execute program args) (.execute program args)
  startLog filter := noting (host.startLog filter) fun _ => .startLog filter
  log entry := noting (host.log entry) fun _ => .log entry

/-- The host gives this answer to the call, and the world is then another. -/
def Call.Answered (host : Host (StateM W)) (before after : W) : Call → Prop
  | load path answer => host.load path before = (answer, after)
  | makeDirectories path answer => host.makeDirectories path before = (answer, after)
  | store path content answer => host.store path content before = (answer, after)
  | find name answer => host.find name before = (answer, after)
  | execute program args answer => host.execute program args before = (answer, after)
  | startLog filter => host.startLog filter before = ((), after)
  | log entry => host.log entry before = ((), after)

/-- Calls that are made one after the other. -/
inductive Calls (host : Host (StateM W)) : W → List Call → W → Prop where
  | nil {w : W} : Calls host w [] w
  | cons {before middle after : W} {call : Call} {calls : List Call}
      (first : call.Answered host before middle) (others : Calls host middle calls after) :
      Calls host before (call :: calls) after

theorem calls_append {host : Host (StateM W)} {before after : W} {xs ys : List Call} :
    Calls host before (xs ++ ys) after ↔
      ∃ middle, Calls host before xs middle ∧ Calls host middle ys after := by
  induction xs generalizing before with
  | nil =>
    constructor
    · intro calls
      exact ⟨before, .nil, calls⟩
    · intro ⟨middle, first, others⟩
      cases first
      exact others
  | cons x xs ih =>
    constructor
    · intro calls
      cases calls with
      | cons first others =>
        obtain ⟨middle, left, right⟩ := ih.mp others
        exact ⟨middle, .cons first left, right⟩
    · intro ⟨middle, left, right⟩
      cases left with
      | cons first others => exact .cons first (ih.mpr ⟨middle, others, right⟩)

/-- `noted` is a program on the host with a record and `plain` the same on the host itself:
they give the same and leave the same, and of the calls and the result `Post` holds. -/
def Records {α : Type} (host : Host (StateM W)) (noted : StateM (W × List Call) α) (plain : StateM W α)
    (Post : List Call → α → Prop) : Prop :=
  ∀ w record, ∃ calls, noted (w, record) = ((plain w).1, (plain w).2, record ++ calls) ∧
    Calls host w calls (plain w).2 ∧ Post calls (plain w).1

namespace Records

variable {host : Host (StateM W)} {α β ε : Type}

theorem imp {x : StateM (W × List Call) α} {y : StateM W α} {Pre Post : List Call → α → Prop}
    (records : Records host x y Pre) (weaker : ∀ calls a, Pre calls a → Post calls a) : Records host x y Post := by
  intro w record
  obtain ⟨calls, run, made, pre⟩ := records w record
  exact ⟨calls, run, made, weaker _ _ pre⟩

theorem pure {a : α} {Post : List Call → α → Prop} (post : Post [] a) :
    Records host (Pure.pure a) (Pure.pure a) Post := by
  intro w record
  refine ⟨[], ?_, .nil, post⟩
  rw [List.append_nil]
  rfl

/-- The end of a program that has made calls. -/
theorem last {calls : List Call} {a : α} {Post : List Call → α → Prop} (post : Post calls a) :
    Records host (Pure.pure a) (Pure.pure a) fun more b => Post (calls ++ more) b := by
  apply Records.pure
  rw [List.append_nil]
  exact post

theorem bind {x : StateM (W × List Call) α} {y : StateM W α} {f : α → StateM (W × List Call) β}
    {g : α → StateM W β} {Mid : List Call → α → Prop} {Post : List Call → β → Prop} (first : Records host x y Mid)
    (next : ∀ calls a, Mid calls a → Records host (f a) (g a) fun more b => Post (calls ++ more) b) :
    Records host (x >>= f) (y >>= g) Post := by
  intro w record
  obtain ⟨calls, run, made, mid⟩ := first w record
  obtain ⟨more, run', made', post⟩ := next calls _ mid (y w).2 (record ++ calls)
  refine ⟨calls ++ more, ?_, calls_append.mpr ⟨_, made, made'⟩, post⟩
  rw [List.append_assoc] at run'
  have unfolded : (x >>= f) (w, record) = f (x (w, record)).1 (x (w, record)).2 := rfl
  rw [unfolded, run]
  exact run'

/-- Steps that may end a program early. -/
theorem bindExcept {x : ExceptT ε (StateM (W × List Call)) α} {y : ExceptT ε (StateM W) α}
    {f : α → ExceptT ε (StateM (W × List Call)) β} {g : α → ExceptT ε (StateM W) β}
    {Mid : List Call → Except ε α → Prop} {Post : List Call → Except ε β → Prop}
    (first : Records host x.run y.run Mid)
    (next : ∀ calls a, Mid calls (.ok a) → Records host (f a).run (g a).run fun more b => Post (calls ++ more) b)
    (failed : ∀ calls e, Mid calls (.error e) → Post calls (.error e)) :
    Records host (x >>= f).run (y >>= g).run Post := by
  rw [ExceptT.run_bind, ExceptT.run_bind]
  apply Records.bind first
  intro calls result mid
  cases result with
  | ok a => exact next calls a mid
  | error e => exact .last (failed calls e mid)

/-- A call of the host itself. -/
def Asks (host : Host (StateM W)) (noted : StateM (W × List Call) α) (plain : StateM W α) (note : α → Call) :
    Prop :=
  Records host noted plain fun calls answer => calls = [note answer]

theorem asks_noting {call : StateM W α} {note : α → Call}
    (answered : ∀ w, (note (call w).1).Answered host w (call w).2) : Asks host (noting call note) call note := by
  intro w record
  exact ⟨[note (call w).1], rfl, .cons (answered w) .nil, rfl⟩

theorem load (path : String) : Asks host (host.recorded.load path) (host.load path) (.load path) :=
  asks_noting fun _ => rfl

theorem makeDirectories (path : String) :
    Asks host (host.recorded.makeDirectories path) (host.makeDirectories path) (.makeDirectories path) :=
  asks_noting fun _ => rfl

theorem store (path : String) (content : Bytes) :
    Asks host (host.recorded.store path content) (host.store path content) (.store path content) :=
  asks_noting fun _ => rfl

theorem find (name : String) : Asks host (host.recorded.find name) (host.find name) (.find name) :=
  asks_noting fun _ => rfl

theorem execute (program : Bytes) (args : List String) :
    Asks host (host.recorded.execute program args) (host.execute program args) (.execute program args) :=
  asks_noting fun _ => rfl

theorem startLog (filter : String) :
    Asks host (host.recorded.startLog filter) (host.startLog filter) fun _ => .startLog filter :=
  @asks_noting W host Unit (host.startLog filter) (fun _ => .startLog filter) fun _ => rfl

theorem log (entry : LogEntry) :
    Asks host (host.recorded.log entry) (host.log entry) fun _ => .log entry :=
  @asks_noting W host Unit (host.log entry) (fun _ => .log entry) fun _ => rfl

end Records

end Host

end ImpToC
