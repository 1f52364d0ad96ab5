import ImpToC.Command
import ImpToC.Proofs.Effects.Calls

/-!
What is seen of the world of a host. A view takes something out of the world, such as the
files without the log. On a lawful host questions and words to the log leave what is seen
as it is, and what is seen decides every answer. So two programs that differ in what they
tell the log cannot be told apart by their results or by what is seen afterwards.
-/
namespace ImpToC

namespace Host

variable {W V : Type}

/-- The laws of a host, as far as a view shows its world. -/
structure Lawful (host : Host (StateM W)) (view : W → V) : Prop where
  /-- Neither a question nor a word to the log changes what is seen. -/
  quiet {call : Call} {before after : W} (answered : call.Answered host before after)
      (question : call.changes = false) : view after = view before
  /-- The answer depends on what is seen, and so does what is seen after it. -/
  decided {call : Call} {before after other : W} (answered : call.Answered host before after)
      (alike : view other = view before) : ∃ later, call.Answered host other later ∧ view later = view after
  /-- A file that was written holds what was written. -/
  kept {path : String} {content : Bytes} {before after : W}
      (stored : (Call.store path content (.ok ())).Answered host before after) :
      (host.load path after).1 = .ok content

/-- As long as there are no changes, every answer is the one that the world at the
beginning would give. -/
theorem Lawful.of_questions {host : Host (StateM W)} {view : W → V} (lawful : host.Lawful view)
    {s after : W} {calls : List Call} (made : Calls host s calls after)
    (quiet : ∀ call ∈ calls, call.changes = false) :
    view after = view s ∧ ∀ call ∈ calls, ∃ later, call.Answered host s later := by
  suffices within : ∀ start, view start = view s →
      view after = view start ∧ ∀ call ∈ calls, ∃ later, call.Answered host start later from within s rfl
  induction made with
  | nil => exact fun start same => ⟨same.symm, by simp⟩
  | @cons before middle after call calls first others ih =>
    obtain ⟨question, rest⟩ := List.forall_mem_cons.mp quiet
    intro start same
    have unmoved := lawful.quiet first question
    obtain ⟨later, answered, _⟩ := lawful.decided first same
    obtain ⟨seen, others⟩ := ih rest start (same.trans unmoved.symm)
    exact ⟨seen, List.forall_mem_cons.mpr ⟨⟨later, answered⟩, others⟩⟩

end Host

/-- From worlds that look the same, both give the same and leave worlds that look the same. -/
def Indistinct {W V α : Type} (view : W → V) (x y : StateM W α) : Prop :=
  ∀ w w', view w = view w' → (x w).1 = (y w').1 ∧ view (x w).2 = view (y w').2

namespace Indistinct

open Host (Call Lawful)

variable {W V α β ε : Type} {view : W → V}

theorem pure (a : α) : Indistinct view (Pure.pure a : StateM W α) (Pure.pure a) :=
  fun _ _ same => ⟨rfl, same⟩

/-- Steps that cannot be told apart follow each other. -/
theorem bind {x y : StateM W α} {f g : α → StateM W β} (first : Indistinct view x y)
    (next : ∀ a, Indistinct view (f a) (g a)) : Indistinct view (x >>= f) (y >>= g) := by
  intro w w' same
  obtain ⟨equal, seen⟩ := first w w' same
  have left : (x >>= f) w = f (x w).1 (x w).2 := rfl
  have right : (y >>= g) w' = g (y w').1 (y w').2 := rfl
  rw [left, right, equal]
  exact next _ _ _ seen

/-- The same for steps that may fail: both sides fail, and with the same error. -/
theorem bindExcept {x y : ExceptT ε (StateM W) α} {f g : α → ExceptT ε (StateM W) β}
    (first : Indistinct view x.run y.run) (next : ∀ a, Indistinct view (f a).run (g a).run) :
    Indistinct view (x >>= f).run (y >>= g).run := by
  rw [ExceptT.run_bind, ExceptT.run_bind]
  refine first.bind fun result => ?_
  cases result with
  | ok a => exact next a
  | error e => exact pure (Except.error e)

variable {host : Host (StateM W)} (lawful : host.Lawful view)
include lawful

/-- A call of the host looks the same whenever the world does. -/
theorem of_answered {ask : StateM W α} {note : α → Call}
    (answers : ∀ a before after, (note a).Answered host before after ↔ ask before = (a, after)) :
    Indistinct view ask ask := by
  intro w w' same
  have answered : (note (ask w).1).Answered host w (ask w).2 := (answers _ _ _).mpr rfl
  obtain ⟨later, again, seen⟩ := lawful.decided answered same.symm
  rw [(answers _ _ _).mp again]
  exact ⟨rfl, seen.symm⟩

theorem load (path : String) : Indistinct view (host.load path) (host.load path) :=
  of_answered lawful fun a _ _ => (Iff.rfl : (Call.load path a).Answered host _ _ ↔ _)

theorem makeDirectories (path : String) :
    Indistinct view (host.makeDirectories path) (host.makeDirectories path) :=
  of_answered lawful fun a _ _ => (Iff.rfl : (Call.makeDirectories path a).Answered host _ _ ↔ _)

theorem store (path : String) (content : Bytes) :
    Indistinct view (host.store path content) (host.store path content) :=
  of_answered lawful fun a _ _ => (Iff.rfl : (Call.store path content a).Answered host _ _ ↔ _)

theorem find (name : String) : Indistinct view (host.find name) (host.find name) :=
  of_answered lawful fun a _ _ => (Iff.rfl : (Call.find name a).Answered host _ _ ↔ _)

theorem execute (program : Bytes) (args : List String) :
    Indistinct view (host.execute program args) (host.execute program args) :=
  of_answered lawful fun a _ _ => (Iff.rfl : (Call.execute program args a).Answered host _ _ ↔ _)

/-- The log may be started in different ways. -/
theorem startLog (filter other : String) : Indistinct view (host.startLog filter) (host.startLog other) := by
  intro w w' same
  have first : (Call.startLog filter).Answered host w (host.startLog filter w).2 := rfl
  have second : (Call.startLog other).Answered host w' (host.startLog other w').2 := rfl
  refine ⟨rfl, ?_⟩
  rw [lawful.quiet first rfl, lawful.quiet second rfl, same]

theorem log (entry : LogEntry) : Indistinct view (host.log entry) (host.log entry) := by
  intro w w' same
  have first : (Call.log entry).Answered host w (host.log entry w).2 := rfl
  have second : (Call.log entry).Answered host w' (host.log entry w').2 := rfl
  refine ⟨rfl, ?_⟩
  rw [lawful.quiet first rfl, lawful.quiet second rfl, same]

end Indistinct

section

variable {W V : Type} {host : Host (StateM W)} {view : W → V} (lawful : host.Lawful view)
include lawful

/-- Entries of the log cannot be seen. -/
theorem Command.logAll_quiet (entries : List LogEntry) (w : W) :
    view (logAll host entries w).2 = view w := by
  induction entries generalizing w with
  | nil => rfl
  | cons entry entries ih =>
    have told : (Host.Call.log entry).Answered host w (host.log entry w).2 := rfl
    exact (ih (host.log entry w).2).trans (lawful.quiet told rfl)

/-- The log may be told different things. -/
theorem Command.logAll_indistinct (entries others : List LogEntry) :
    Indistinct view (logAll host entries) (logAll host others) := by
  intro w w' same
  refine ⟨rfl, ?_⟩
  rw [logAll_quiet lawful, logAll_quiet lawful, same]

namespace Build

theorem findFirst?_indistinct (names : List String) :
    Indistinct view (findFirst? host names) (findFirst? host names) := by
  induction names with
  | nil => exact .pure none
  | cons name names ih =>
    rw [findFirst?]
    refine (Indistinct.find lawful name).bind fun answer => ?_
    cases answer with
    | some path => exact .pure (some path)
    | none => exact ih

theorem locate_indistinct (env : Environment) (configured : Option String) :
    Indistinct view (locate host env configured) (locate host env configured) := by
  have chosen : Indistinct view (choose host env configured) (choose host env configured) := by
    unfold choose
    cases named? env configured with
    | some path => exact .pure (some path)
    | none => exact findFirst?_indistinct lawful candidates
  unfold locate
  refine chosen.bind fun found => ?_
  cases found with
  | none => exact .pure _
  | some compiler => exact (Indistinct.log lawful (usingCompiler compiler)).bind fun _ => .pure _

omit lawful in
theorem during_indistinct {α : Type} {call : StateM W (Except SystemError α)} (alike : Indistinct view call call)
    (context : String) : Indistinct view (during context call).run (during context call).run := by
  refine alike.bind fun answer => ?_
  cases answer with
  | ok value => exact .pure _
  | error e => exact .pure _

theorem note_indistinct (entry : LogEntry) : Indistinct view (note host entry).run (note host entry).run :=
  (Indistinct.log lawful entry).bind fun _ => .pure _

theorem build_indistinct (compiler : Bytes) (directory code : String) :
    Indistinct view (build host compiler directory code).run (build host compiler directory code).run := by
  unfold build
  refine .bindExcept (during_indistinct (.makeDirectories lawful directory) _) fun _ => ?_
  refine .bindExcept (during_indistinct (.store lawful _ _) _) fun _ => ?_
  refine .bindExcept (note_indistinct lawful _) fun _ => ?_
  refine .bindExcept (during_indistinct (.execute lawful compiler _) _) fun finished => ?_
  cases finished.status.isSuccess with
  | true => exact .bindExcept (note_indistinct lawful _) fun _ => .pure _
  | false => exact .pure _

/-- What building and running does and reports depends on the view alone. -/
theorem buildAndRun_indistinct (compiler : Bytes) (directory code : String) :
    Indistinct view (buildAndRun host compiler directory code).run (buildAndRun host compiler directory code).run := by
  unfold buildAndRun
  refine .bindExcept (build_indistinct lawful compiler directory code) fun executable => ?_
  unfold runExecutable
  refine .bindExcept (during_indistinct (.execute lawful _ []) _) fun finished => ?_
  cases finished.status.isSuccess with
  | true => exact .pure _
  | false => exact .pure _

end Build

namespace Command

theorem readSource_indistinct (path : String) : Indistinct view (readSource host path) (readSource host path) := by
  unfold readSource
  refine (Indistinct.load lawful path).bind fun answer => ?_
  cases answer with
  | error e => exact .pure _
  | ok bytes =>
    dsimp only
    cases bytes.toText? with
    | some text => exact .pure _
    | none => exact .pure _

theorem execute_indistinct (env : Environment) (settings : Settings) (path code : String) :
    Indistinct view (execute host env settings path code) (execute host env settings path code) := by
  unfold execute
  refine (Build.locate_indistinct lawful env settings.compiler).bind fun located => ?_
  cases located with
  | error e => exact .pure _
  | ok compiler =>
    refine (Build.buildAndRun_indistinct lawful compiler settings.outputDir code).bind fun result => ?_
    cases result with
    | ok stdout => exact .pure _
    | error e => exact .pure _

omit lawful in
/-- Without the log, settings and the choice of a compiler come from three variables. -/
theorem execute_congr (host : Host (StateM W)) {env other : Environment}
    (same : ∀ key, key ≠ "CCCP_DEBUG" → key ≠ "CCCP_LOG" → env key = other key) (path code : String) :
    (Settings.ofEnvironment env).emitOnly = (Settings.ofEnvironment other).emitOnly ∧
      execute host env (.ofEnvironment env) path code =
        execute host other (.ofEnvironment other) path code := by
  have setting : ∀ key, key ≠ "CCCP_DEBUG" → key ≠ "CCCP_LOG" →
      Settings.set? env.text? key = Settings.set? other.text? key := by
    intro key notDebug notLog
    rw [Settings.set?, Settings.set?, Environment.text?, Environment.text?, same key notDebug notLog]
  have outputDir : (Settings.ofEnvironment env).outputDir = (Settings.ofEnvironment other).outputDir := by
    simp only [Settings.ofEnvironment, Settings.ofLookup, setting "CCCP_OUTPUT_DIR" (by decide) (by decide)]
  have compiler : (Settings.ofEnvironment env).compiler = (Settings.ofEnvironment other).compiler :=
    setting "CC" (by decide) (by decide)
  constructor
  · simp only [Settings.ofEnvironment, Settings.ofLookup, Settings.switch,
      setting "CCCP_EMIT_ONLY" (by decide) (by decide)]
  · simp only [execute, Build.locate, Build.choose, Build.named?, outputDir, compiler,
      same "CC" (by decide) (by decide)]

/-- The two variables of the log, which decide what is told to it, decide nothing else. -/
theorem run_indistinct (invocation : Invocation) {env : Environment}
    (same : ∀ key, key ≠ "CCCP_DEBUG" → key ≠ "CCCP_LOG" → env key = invocation.env key) :
    Indistinct view (run host { invocation with env }) (run host invocation) := by
  unfold run
  dsimp only
  cases invocation.args with
  | nil => exact .pure _
  | cons path others =>
    cases others with
    | cons _ _ => exact .pure _
    | nil =>
      dsimp only
      unfold runFile
      refine (Indistinct.startLog lawful _ _).bind fun _ => ?_
      refine (readSource_indistinct lawful path).bind fun result => ?_
      cases result with
      | error cause => exact .pure _
      | ok source =>
        refine (logAll_indistinct lawful _ _).bind fun _ => ?_
        cases compile source with
        | error e => exact .pure _
        | ok code =>
          obtain ⟨emitOnly, executes⟩ := execute_congr host same path code
          dsimp only
          rw [emitOnly, executes]
          cases (Settings.ofEnvironment invocation.env).emitOnly with
          | true => exact .pure _
          | false => exact execute_indistinct lawful _ _ path code

end Command

end

end ImpToC
