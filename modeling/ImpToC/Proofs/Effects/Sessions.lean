import ImpToC.Command
import ImpToC.Proofs.Effects.Calls

/-!
All that the command line can do. A session is told by the calls of the host with their
answers and by the report at the end: which call is made next depends on the arguments,
the environment, the conventions and the answers so far, and on nothing else. Every run on
every host is such a session.
-/
namespace ImpToC

open Host (Call Records)

namespace Build

/-- A search that ends at the first name that a program goes by. -/
inductive Searches : List String → List Call → Option Bytes → Prop where
  | nowhere : Searches [] [] none
  | found {name : String} {names : List String} {path : Bytes} :
      Searches (name :: names) [.find name (some path)] (some path)
  | later {name : String} {names : List String} {calls : List Call} {result : Option Bytes}
      (others : Searches names calls result) : Searches (name :: names) (.find name none :: calls) result

/-- How a compiler is chosen. -/
inductive Chooses (env : Environment) (configured : Option String) : List Call → Option Bytes → Prop where
  | named {path : Bytes} (given : named? env configured = some path) : Chooses env configured [] (some path)
  | searched {calls : List Call} {result : Option Bytes} (unnamed : named? env configured = none)
      (searched : Searches candidates calls result) : Chooses env configured calls result

/-- The log is told which compiler it is. -/
inductive Locates (env : Environment) (configured : Option String) :
    List Call → Except BuildError Bytes → Prop where
  | chosen {calls : List Call} {compiler : Bytes} (chooses : Chooses env configured calls (some compiler)) :
      Locates env configured (calls ++ [.log (usingCompiler compiler)]) (.ok compiler)
  | missing {calls : List Call} (chooses : Chooses env configured calls none) :
      Locates env configured calls (.error .noCompiler)

/-- Where the C text is written to. -/
def sourcePath (directory : String) : String := Path.join directory "output.c"

def executablePath (directory : String) : String := Path.join directory "output"

/-- What a compiler is told to do. -/
def compilerArgs (directory : String) : List String := [sourcePath directory, "-o", executablePath directory]

/-- The calls that put the C text into its place. -/
def writing (directory code : String) : List Call :=
  [.makeDirectories directory (.ok ()), .store (sourcePath directory) (.ofText code) (.ok ()),
    .log (wroteSource (sourcePath directory))]

/-- The calls that turn C into an executable, up to the first that fails. -/
inductive Compiles (compiler : Bytes) (directory code : String) :
    List Call → Except BuildError String → Prop where
  | noDirectory {e : SystemError} :
      Compiles compiler directory code [.makeDirectories directory (.error e)]
        (.error (.system ("creating " ++ directory) e))
  | unwritten {e : SystemError} :
      Compiles compiler directory code
        [.makeDirectories directory (.ok ()), .store (sourcePath directory) (.ofText code) (.error e)]
        (.error (.system ("writing " ++ sourcePath directory) e))
  | unstarted {e : SystemError} :
      Compiles compiler directory code
        (writing directory code ++ [.execute compiler (compilerArgs directory) (.error e)])
        (.error (.system ("running " ++ Bytes.toTextLossy compiler) e))
  | refused {finished : Finished} (failed : finished.status.isSuccess = false) :
      Compiles compiler directory code
        (writing directory code ++ [.execute compiler (compilerArgs directory) (.ok finished)])
        (.error (.compilation (Bytes.toTextLossy finished.stderr)))
  | done {finished : Finished} (success : finished.status.isSuccess = true) :
      Compiles compiler directory code
        (writing directory code ++ [.execute compiler (compilerArgs directory) (.ok finished),
          .log (compiledExecutable (executablePath directory))])
        (.ok (executablePath directory))

/-- The run of an executable. -/
inductive Runs (executable : String) : List Call → Except BuildError String → Prop where
  | unstarted {e : SystemError} :
      Runs executable [.execute (.ofText executable) [] (.error e)] (.error (.system ("running " ++ executable) e))
  | failed {finished : Finished} (failed : finished.status.isSuccess = false) :
      Runs executable [.execute (.ofText executable) [] (.ok finished)]
        (.error (.execution finished.status (Bytes.toTextLossy finished.stderr)))
  | done {finished : Finished} (success : finished.status.isSuccess = true) :
      Runs executable [.execute (.ofText executable) [] (.ok finished)] (.ok (Bytes.toTextLossy finished.stdout))

/-- A build that fails, or one with a run after it. -/
inductive Builds (compiler : Bytes) (directory code : String) :
    List Call → Except BuildError String → Prop where
  | stopped {calls : List Call} {e : BuildError} (compiles : Compiles compiler directory code calls (.error e)) :
      Builds compiler directory code calls (.error e)
  | ran {calls more : List Call} {executable : String} {result : Except BuildError String}
      (compiles : Compiles compiler directory code calls (.ok executable)) (runs : Runs executable more result) :
      Builds compiler directory code (calls ++ more) result

variable {W : Type} (host : Host (StateM W))

theorem findFirst?_records (names : List String) :
    Records host (findFirst? host.recorded names) (findFirst? host names) (Searches names) := by
  induction names with
  | nil => exact .pure .nowhere
  | cons name names ih =>
    rw [findFirst?, findFirst?]
    apply Records.bind (Records.find name)
    intro calls answer asked
    subst asked
    cases answer with
    | some path => exact .pure .found
    | none => exact ih.imp fun _ _ => .later

theorem choose_records (env : Environment) (configured : Option String) :
    Records host (choose host.recorded env configured) (choose host env configured)
      (Chooses env configured) := by
  unfold choose
  cases given : named? env configured with
  | some path => exact .pure (.named given)
  | none => exact (findFirst?_records host candidates).imp fun _ _ => .searched given

theorem locate_records (env : Environment) (configured : Option String) :
    Records host (locate host.recorded env configured) (locate host env configured)
      (Locates env configured) := by
  unfold locate
  apply Records.bind (choose_records host env configured)
  intro calls chosen chooses
  cases chosen with
  | none => exact .last (.missing chooses)
  | some compiler =>
    apply Records.bind (Records.log (usingCompiler compiler))
    intro more _ told
    subst told
    exact .pure (.chosen chooses)

theorem during_records {α : Type} {context : String} {noted : StateM (W × List Call) (Except SystemError α)}
    {plain : StateM W (Except SystemError α)} {note : Except SystemError α → Call}
    (asks : Records.Asks host noted plain note) :
    Records host (during context noted).run (during context plain).run fun calls result =>
      match result with
      | .ok value => calls = [note (.ok value)]
      | .error error => ∃ e, error = .system context e ∧ calls = [note (.error e)] := by
  apply Records.bind asks
  intro calls answer asked
  subst asked
  cases answer with
  | ok value => exact .pure rfl
  | error e => exact .pure ⟨e, rfl, rfl⟩

/-- A word to the log comes between two steps and ends neither. -/
theorem note_records {α : Type} (entry : LogEntry) {f : Unit → ExceptT BuildError (StateM (W × List Call)) α}
    {g : Unit → ExceptT BuildError (StateM W) α} {Post : List Call → Except BuildError α → Prop}
    (next : Records host (f ()).run (g ()).run fun more b => Post (.log entry :: more) b) :
    Records host (note host.recorded entry >>= f).run (note host entry >>= g).run Post := by
  have told : Records host (note host.recorded entry).run (note host entry).run
      fun calls result => calls = [.log entry] ∧ result = .ok () := by
    apply Records.bind (Records.log entry)
    intro calls _ asked
    subst asked
    exact .pure ⟨rfl, rfl⟩
  apply Records.bindExcept told
  · intro calls _ both
    obtain ⟨rfl, _⟩ := both
    exact next
  · intro calls e both
    cases both.2

theorem build_records (compiler : Bytes) (directory code : String) :
    Records host (build host.recorded compiler directory code).run (build host compiler directory code).run
      (Compiles compiler directory code) := by
  unfold build
  apply Records.bindExcept (during_records host (.makeDirectories directory))
  · intro calls _ made
    subst made
    apply Records.bindExcept (during_records host (.store (sourcePath directory) (.ofText code)))
    · intro calls _ stored
      subst stored
      apply note_records
      apply Records.bindExcept (during_records host (.execute compiler (compilerArgs directory)))
      · intro calls finished executed
        subst executed
        cases success : finished.status.isSuccess with
        | true =>
          simp only [if_true]
          apply note_records
          exact .pure (.done success)
        | false =>
          simp only [Bool.false_eq_true, if_false]
          exact .pure (.refused success)
      · intro calls error executed
        obtain ⟨e, rfl, rfl⟩ := executed
        exact .unstarted
    · intro calls error stored
      obtain ⟨e, rfl, rfl⟩ := stored
      exact .unwritten
  · intro calls error made
    obtain ⟨e, rfl, rfl⟩ := made
    exact .noDirectory

theorem runExecutable_records (executable : String) :
    Records host (runExecutable host.recorded executable).run (runExecutable host executable).run
      (Runs executable) := by
  unfold runExecutable
  apply Records.bindExcept (during_records host (.execute (.ofText executable) []))
  · intro calls finished executed
    subst executed
    cases success : finished.status.isSuccess with
    | true => exact .pure (.done success)
    | false => exact .pure (.failed success)
  · intro calls error executed
    obtain ⟨e, rfl, rfl⟩ := executed
    exact .unstarted

theorem buildAndRun_records (compiler : Bytes) (directory code : String) :
    Records host (buildAndRun host.recorded compiler directory code).run
      (buildAndRun host compiler directory code).run (Builds compiler directory code) := by
  unfold buildAndRun
  apply Records.bindExcept (build_records host compiler directory code)
  · intro calls executable compiles
    exact (runExecutable_records host executable).imp fun _ _ => .ran compiles
  · intro calls error compiles
    exact .stopped compiles

end Build

namespace Command

/-- How the text of a source is read. -/
inductive Fetches (path : String) : List Call → Except String String → Prop where
  | unreadable {e : SystemError} : Fetches path [.load path (.error e)] (.error e.message)
  | noText {bytes : Bytes} (invalid : bytes.toText? = none) :
      Fetches path [.load path (.ok bytes)] (.error "stream did not contain valid UTF-8")
  | text {bytes : Bytes} {source : String} (text : bytes.toText? = some source) :
      Fetches path [.load path (.ok bytes)] (.ok source)

variable (conventions : Host.Conventions)

/-- What is told of a build in the end. -/
def buildReport (path : String) (compiler : Bytes) (directory : String) : Except BuildError String → Report
  | .ok stdout => ⟨0, stdout, ""⟩
  | .error e =>
    failure conventions ("building " ++ path ++ " with " ++ Bytes.toTextLossy compiler ++ " in " ++ directory)
      e.chain

/-- Code that is built and run with a compiler that is looked for first. -/
inductive Executes (env : Environment) (settings : Settings) (path code : String) :
    List Call → Report → Prop where
  | noCompiler {calls : List Call} {e : BuildError}
      (located : Build.Locates env settings.compiler calls (.error e)) :
      Executes env settings path code calls (failure conventions e.message [])
  | built {calls more : List Call} {compiler : Bytes} {result : Except BuildError String}
      (located : Build.Locates env settings.compiler calls (.ok compiler))
      (builds : Build.Builds compiler settings.outputDir code more result) :
      Executes env settings path code (calls ++ more)
        (buildReport conventions path compiler settings.outputDir result)

/-- What the log is told of a source. -/
def told (settings : Settings) (source : String) : List Call := (sourceLog settings source).map .log

/-- What is done with the one file that is named. -/
inductive Handles (env : Environment) (settings : Settings) (path : String) : List Call → Report → Prop where
  | unread {cause : String} {calls : List Call} (fetched : Fetches path calls (.error cause)) :
      Handles env settings path calls (failure conventions ("reading " ++ path) [cause])
  | rejected {source : String} {calls : List Call} {e : CompileError} (fetched : Fetches path calls (.ok source))
      (failed : compile source = .error e) :
      Handles env settings path (calls ++ told settings source) ⟨1, "", complaint path source e⟩
  | printed {source code : String} {calls : List Call} (fetched : Fetches path calls (.ok source))
      (compiled : compile source = .ok code) (only : settings.emitOnly = true) :
      Handles env settings path (calls ++ told settings source) ⟨0, code, ""⟩
  | executed {source code : String} {calls more : List Call} {report : Report}
      (fetched : Fetches path calls (.ok source)) (compiled : compile source = .ok code)
      (off : settings.emitOnly = false) (executes : Executes conventions env settings path code more report) :
      Handles env settings path (calls ++ told settings source ++ more) report

/-- A session from the first call to the report. -/
inductive Session (invocation : Invocation) : List Call → Report → Prop where
  | usage (wrong : invocation.args.length ≠ 1) : Session invocation [] ⟨2, "", usage invocation.program⟩
  | started {path : String} {calls : List Call} {report : Report} (given : invocation.args = [path])
      (handles : Handles conventions invocation.env (.ofEnvironment invocation.env) path calls report) :
      Session invocation
        (.startLog (logFilter conventions invocation.env (.ofEnvironment invocation.env)) :: calls) report

variable {W : Type} (host : Host (StateM W))

theorem logAll_records (entries : List LogEntry) :
    Records host (logAll host.recorded entries) (logAll host entries)
      fun calls _ => calls = entries.map .log := by
  induction entries with
  | nil => exact .pure rfl
  | cons entry entries ih =>
    rw [logAll, logAll]
    apply Records.bind (Records.log entry)
    intro calls _ told
    subst told
    exact ih.imp fun more _ rest => congrArg (Call.log entry :: ·) rest

theorem readSource_records (path : String) :
    Records host (readSource host.recorded path) (readSource host path) (Fetches path) := by
  unfold readSource
  apply Records.bind (Records.load path)
  intro calls answer asked
  subst asked
  cases answer with
  | error e => exact .pure .unreadable
  | ok bytes =>
    dsimp only
    cases text : bytes.toText? with
    | some source => exact .pure (.text text)
    | none => exact .pure (.noText text)

theorem execute_records (env : Environment) (settings : Settings) (path code : String) :
    Records host (execute host.recorded env settings path code) (execute host env settings path code)
      (Executes host.conventions env settings path code) := by
  unfold execute
  apply Records.bind (Build.locate_records host env settings.compiler)
  intro calls located locates
  cases located with
  | error e => exact .last (.noCompiler locates)
  | ok compiler =>
    apply Records.bind (Build.buildAndRun_records host compiler settings.outputDir code)
    intro more result builds
    have whole : Executes host.conventions env settings path code (calls ++ more) _ := .built locates builds
    rw [← List.append_nil more] at whole
    cases result with
    | ok stdout => exact .pure whole
    | error e => exact .pure whole

/-- A file that was read is told to the log first, whatever becomes of it then. -/
theorem runFile_records (env : Environment) (path : String) :
    Records host (runFile host.recorded env path) (runFile host env path) fun calls report =>
      ∃ rest, calls = .startLog (logFilter host.conventions env (.ofEnvironment env)) :: rest ∧
        Handles host.conventions env (.ofEnvironment env) path rest report := by
  unfold runFile
  apply Records.bind (Records.startLog _)
  intro calls _ started
  subst started
  suffices handled : Records host _ _ (Handles host.conventions env (.ofEnvironment env) path) from
    handled.imp fun rest _ handles => ⟨rest, rfl, handles⟩
  apply Records.bind (readSource_records host path)
  intro calls result fetched
  cases result with
  | error cause => exact .last (.unread fetched)
  | ok source =>
    apply Records.bind (logAll_records host (sourceLog (.ofEnvironment env) source))
    intro more _ entries
    subst entries
    cases compiled : compile source with
    | error e =>
      apply Records.pure
      rw [List.append_nil]
      exact .rejected fetched compiled
    | ok code =>
      dsimp only
      cases only : (Settings.ofEnvironment env).emitOnly with
      | true =>
        apply Records.pure
        rw [List.append_nil]
        exact .printed fetched compiled only
      | false =>
        refine (execute_records host env _ path code).imp fun rest _ executes => ?_
        rw [← List.append_assoc]
        exact .executed fetched compiled only executes

/-- Every run on every host is a session. -/
theorem run_records (invocation : Invocation) :
    Records host (run host.recorded invocation) (run host invocation)
      (Session host.conventions invocation) := by
  unfold run
  cases given : invocation.args with
  | nil => exact .pure (.usage (by simp [given]))
  | cons path others =>
    cases others with
    | cons _ _ => exact .pure (.usage (by simp [given]))
    | nil =>
      refine (runFile_records host invocation.env path).imp fun calls report started => ?_
      obtain ⟨rest, rfl, handles⟩ := started
      exact .started given handles

end Command

end ImpToC
